import Mathlib.Order.Interval.Set.Defs
import FeatureLogic.Graph.Copying
import FeatureLogic.Proofs.Agenda
import FeatureLogic.Proofs.Graph.Notes

/-!
Copies out of another graph. The nodes that `Graph.copyFrom` adds are copies of the nodes below the
root, one of each, with the edges of their originals (`Graph.Whole.exists_duplicates`). A copy within
a graph is one out of the graph as it was (`Graph.copyWithin_eq`).
-/

open Relation

namespace FeatureLogic

namespace Copying

/-- The copy of a node, or the node itself before it is copied. -/
def image (copies : Array (Option NodeId)) (n : NodeId) : NodeId := (copyIn? copies n).getD n

/-- The node that a task copies. -/
def Task.enters : Task → Option NodeId
  | .enter n => some n
  | .connect _ _ => none

/-- The nodes whose copies a task needs. -/
def Task.needs : Task → List NodeId
  | .enter _ => []
  | .connect _ edges => edges.map Edge.target

/-- The node has a copy. -/
def Copied (c : Copying) (n : NodeId) : Prop := ∃ k, copyIn? c.copies n = some k

/-- What holds between two turns of copying the structure below `root` into `g`: every new node is
the copy of one node, and has its edges or waits for them. -/
structure Growing (g source : Graph) (root : NodeId) (c : Copying) (tasks : List Task) : Prop where
  generation_eq : c.graph.generation = g.generation
  size_le : g.size ≤ c.graph.size
  old : ∀ {n : Nat}, n < g.size → c.graph.node n = g.node n
  below : ∀ {n k}, copyIn? c.copies n = some k → source.Below root n
  le_copy : ∀ {n k}, copyIn? c.copies n = some k → g.size ≤ k
  copy_lt : ∀ {n k}, copyIn? c.copies n = some k → k < c.graph.size
  inj : ∀ {n m k}, copyIn? c.copies n = some k → copyIn? c.copies m = some k → n = m
  surj : ∀ {k : Nat}, g.size ≤ k → k < c.graph.size → ∃ n, copyIn? c.copies n = some k
  node : ∀ {n k}, copyIn? c.copies n = some k →
    ∃ edges, c.graph.node k = .fresh (source.type n) edges
  edges : ∀ {n k}, copyIn? c.copies n = some k → .connect k (source.edges n) ∈ tasks ∨
    c.graph.edges k = Edges.mapTargets (image c.copies) (source.edges n) ∧
      ∀ e ∈ source.edges n, c.Copied e.target
  connect : ∀ {k list}, .connect k list ∈ tasks →
    ∃ n, copyIn? c.copies n = some k ∧ list = source.edges n
  enter : ∀ {n}, .enter n ∈ tasks → source.Below root n
  ready : Agenda.Ready Task.enters Task.needs c.Copied tasks
  start : (c.graph.size = g.size ∧ tasks = [.enter root]) ∨ copyIn? c.copies root = some g.size

section Growing

variable {g source : Graph} {root : NodeId} {c : Copying} {waiting : List Task}

theorem copyIn?_replicate (size n : Nat) : copyIn? (Array.replicate size none) n = none := by
  simp only [copyIn?, Array.getD_eq_getD_getElem?, Array.getElem?_replicate]
  split <;> rfl

theorem growing_start (g source : Graph) (root : NodeId) (size : Nat) :
    Growing g source root ⟨g, .replicate size none⟩ [.enter root] := by
  have hnone : ∀ {n k}, copyIn? (Array.replicate size none) n ≠ some k := by
    intro n k h
    rw [copyIn?_replicate] at h
    cases h
  refine ⟨rfl, Nat.le_refl _, fun _ => rfl, fun h => absurd h hnone, fun h => absurd h hnone,
    fun h => absurd h hnone, fun h => absurd h hnone, fun h₁ h₂ => ?_, fun h => absurd h hnone,
    fun h => absurd h hnone, fun h => ?_, fun h => ?_, ?_, .inl ⟨rfl, rfl⟩⟩
  · exact absurd h₂ (Nat.not_lt.2 h₁)
  · cases List.mem_singleton.1 h
  · cases List.mem_singleton.1 h
    exact ReflTransGen.refl
  · exact ⟨fun _ h => absurd h List.not_mem_nil, trivial⟩

/-- To come to a node that has a copy changes nothing. -/
theorem Growing.pop {n k : NodeId} (h : Growing g source root c (.enter n :: waiting))
    (hk : copyIn? c.copies n = some k) : Growing g source root c waiting := by
  refine { h with
    edges := fun hm => ?_
    connect := fun hm => h.connect (List.mem_cons_of_mem _ hm)
    enter := fun hm => h.enter (List.mem_cons_of_mem _ hm)
    ready := h.ready.2.mono fun m hm => ?_
    start := ?_ }
  · refine (h.edges hm).imp_left fun hmem => ?_
    rcases List.mem_cons.1 hmem with heq | hmem
    · cases heq
    · exact hmem
  · rcases hm with hm | hm
    · exact hm
    · cases hm
      exact ⟨k, hk⟩
  · rcases h.start with ⟨hsize, -⟩ | hroot
    · have h₁ := h.le_copy hk
      have h₂ := h.copy_lt hk
      exact absurd (Nat.lt_of_le_of_lt h₁ h₂) (by rw [hsize]; exact Nat.lt_irrefl _)
    · exact .inr hroot

/-- The copying once a node has a copy, which has no edges at first. -/
def begun (source : Graph) (c : Copying) (n : NodeId) : Copying :=
  ⟨c.graph.add (source.type n) [], noteIn c.copies n c.graph.size⟩

/-- What the copy of a node waits for: the copies of its targets, and then its edges. -/
def awaited (source : Graph) (c : Copying) (n : NodeId) : List Task :=
  (source.edges n).map (fun e => .enter e.target) ++ [.connect c.graph.size (source.edges n)]

section Begun

variable {n m k : NodeId}

theorem size_begun : (begun source c n).graph.size = c.graph.size + 1 := Graph.size_add ..

theorem node_begun_of_lt (hk : k < c.graph.size) :
    (begun source c n).graph.node k = c.graph.node k := by
  rw [begun, Graph.node_add, if_neg (Nat.ne_of_lt hk)]

theorem copyIn?_begun_self : copyIn? (begun source c n).copies n = some c.graph.size := by
  rw [begun, copyIn?_noteIn, if_pos rfl]

theorem copyIn?_begun_of_copy (hn : copyIn? c.copies n = none)
    (hm : copyIn? c.copies m = some k) : copyIn? (begun source c n).copies m = some k := by
  rw [begun, copyIn?_noteIn, if_neg]
  · exact hm
  · rintro rfl
    rw [hn] at hm
    cases hm

theorem copyIn?_begun_cases (hm : copyIn? (begun source c n).copies m = some k) :
    (m = n ∧ k = c.graph.size) ∨ copyIn? c.copies m = some k := by
  rw [begun, copyIn?_noteIn] at hm
  split at hm
  · rename_i heq
    cases hm
    exact .inl ⟨heq.symm, rfl⟩
  · exact .inr hm

theorem Copied.begun (hn : copyIn? c.copies n = none) (hm : c.Copied m) :
    (Copying.begun source c n).Copied m := by
  obtain ⟨k, hk⟩ := hm
  exact ⟨k, copyIn?_begun_of_copy hn hk⟩

theorem Growing.inj_begun (h : Growing g source root c (.enter n :: waiting)) {m' : NodeId}
    (hm : copyIn? (begun source c n).copies m = some k)
    (hm' : copyIn? (begun source c n).copies m' = some k) : m = m' := by
  rcases copyIn?_begun_cases hm with ⟨rfl, rfl⟩ | hold <;>
    rcases copyIn?_begun_cases hm' with ⟨rfl, hk⟩ | hold'
  · rfl
  · exact absurd (h.copy_lt hold') (Nat.lt_irrefl _)
  · exact absurd (h.copy_lt (hk ▸ hold)) (Nat.lt_irrefl _)
  · exact h.inj hold hold'

theorem Growing.surj_begun (h : Growing g source root c (.enter n :: waiting))
    (hn : copyIn? c.copies n = none) (hk : g.size ≤ k)
    (hlt : k < (begun source c n).graph.size) :
    ∃ m, copyIn? (begun source c n).copies m = some k := by
  rw [size_begun] at hlt
  rcases Nat.lt_succ_iff_lt_or_eq.1 hlt with hlt | rfl
  · obtain ⟨m, hm⟩ := h.surj hk hlt
    exact ⟨m, copyIn?_begun_of_copy hn hm⟩
  · exact ⟨n, copyIn?_begun_self⟩

theorem Growing.node_begun (h : Growing g source root c (.enter n :: waiting))
    (hm : copyIn? (begun source c n).copies m = some k) :
    ∃ edges, (begun source c n).graph.node k = .fresh (source.type m) edges := by
  rcases copyIn?_begun_cases hm with ⟨rfl, rfl⟩ | hm
  · exact ⟨[], by rw [begun, Graph.node_add, if_pos rfl]⟩
  · rw [node_begun_of_lt (h.copy_lt hm)]
    exact h.node hm

/-- The new copy waits for its edges; the others wait as before, or keep the edges they have. -/
theorem Growing.edges_begun (h : Growing g source root c (.enter n :: waiting))
    (hn : copyIn? c.copies n = none) (hm : copyIn? (begun source c n).copies m = some k) :
    .connect k (source.edges m) ∈ awaited source c n ++ waiting ∨
      (begun source c n).graph.edges k =
          Edges.mapTargets (image (begun source c n).copies) (source.edges m) ∧
        ∀ e ∈ source.edges m, (begun source c n).Copied e.target := by
  rcases copyIn?_begun_cases hm with ⟨rfl, rfl⟩ | hm
  · exact .inl (List.mem_append_left _ (List.mem_append_right _ (List.mem_singleton_self _)))
  · rcases h.edges hm with hmem | ⟨heq, hall⟩
    · rcases List.mem_cons.1 hmem with heq | hmem
      · cases heq
      · exact .inl (List.mem_append_right _ hmem)
    · refine .inr ⟨?_, fun e he => (hall e he).begun hn⟩
      rw [Graph.edges, node_begun_of_lt (h.copy_lt hm)]
      refine heq.trans (Edges.mapTargets_congr fun e he => ?_)
      obtain ⟨k', hk'⟩ := hall e he
      rw [image, image, hk', copyIn?_begun_of_copy hn hk']

theorem Growing.connect_begun (h : Growing g source root c (.enter n :: waiting))
    (hn : copyIn? c.copies n = none) {list : List Edge}
    (hmem : .connect k list ∈ awaited source c n ++ waiting) :
    ∃ m, copyIn? (begun source c n).copies m = some k ∧ list = source.edges m := by
  rcases List.mem_append.1 hmem with hmem | hmem
  · rcases List.mem_append.1 hmem with hmem | hmem
    · obtain ⟨e, -, heq⟩ := List.mem_map.1 hmem
      cases heq
    · cases List.mem_singleton.1 hmem
      exact ⟨n, copyIn?_begun_self, rfl⟩
  · obtain ⟨m, hm, hlist⟩ := h.connect (List.mem_cons_of_mem _ hmem)
    exact ⟨m, copyIn?_begun_of_copy hn hm, hlist⟩

theorem Growing.enter_begun (h : Growing g source root c (.enter n :: waiting))
    (hmem : .enter m ∈ awaited source c n ++ waiting) : source.Below root m := by
  rcases List.mem_append.1 hmem with hmem | hmem
  · rcases List.mem_append.1 hmem with hmem | hmem
    · obtain ⟨e, he, heq⟩ := List.mem_map.1 hmem
      cases heq
      exact (h.enter (List.mem_cons_self ..)).edge he
    · cases List.mem_singleton.1 hmem
  · exact h.enter (List.mem_cons_of_mem _ hmem)

/-- The targets of a node are entered before its edges are connected. -/
theorem Growing.ready_begun (h : Growing g source root c (.enter n :: waiting))
    (hn : copyIn? c.copies n = none) :
    Agenda.Ready Task.enters Task.needs (begun source c n).Copied
      (awaited source c n ++ waiting) := by
  rw [awaited, List.append_assoc]
  refine Agenda.ready_append ?_ ⟨?_, ?_⟩
  · intro task ht
    obtain ⟨e, -, rfl⟩ := List.mem_map.1 ht
    rfl
  · intro m hm
    obtain ⟨e, he, rfl⟩ := List.mem_map.1 hm
    exact .inr ⟨_, List.mem_map.2 ⟨e, he, rfl⟩, rfl⟩
  · refine h.ready.2.mono fun m hm => .inl (.inl ?_)
    rcases hm with hm | hm
    · exact hm.begun hn
    · cases hm
      exact ⟨_, copyIn?_begun_self⟩

/-- A node that has no copy gets one, without edges at first. -/
theorem Growing.push (h : Growing g source root c (.enter n :: waiting))
    (hn : copyIn? c.copies n = none) :
    Growing g source root (begun source c n) (awaited source c n ++ waiting) where
  generation_eq := h.generation_eq
  size_le := by
    rw [size_begun]
    exact Nat.le_succ_of_le h.size_le
  old := fun hm => (node_begun_of_lt (Nat.lt_of_lt_of_le hm h.size_le)).trans (h.old hm)
  below := fun hm => by
    rcases copyIn?_begun_cases hm with ⟨rfl, -⟩ | hm
    · exact h.enter (List.mem_cons_self ..)
    · exact h.below hm
  le_copy := fun hm => by
    rcases copyIn?_begun_cases hm with ⟨-, rfl⟩ | hm
    · exact h.size_le
    · exact h.le_copy hm
  copy_lt := fun hm => by
    rw [size_begun]
    rcases copyIn?_begun_cases hm with ⟨-, rfl⟩ | hm
    · exact Nat.lt_succ_self _
    · exact Nat.lt_succ_of_lt (h.copy_lt hm)
  inj := h.inj_begun
  surj := h.surj_begun hn
  node := h.node_begun
  edges := h.edges_begun hn
  connect := h.connect_begun hn
  enter := h.enter_begun
  ready := h.ready_begun hn
  start := by
    refine .inr ?_
    rcases h.start with ⟨hsize, htasks⟩ | hroot
    · cases htasks
      rw [copyIn?_begun_self, hsize]
    · exact copyIn?_begun_of_copy hn hroot

end Begun

/-- A copy gets its edges, when all their targets have copies. -/
theorem Growing.connected {copy : NodeId} {list : List Edge}
    (h : Growing g source root c (.connect copy list :: waiting)) :
    Growing g source root ⟨c.graph.setEdges copy (Edges.mapTargets (image c.copies) list),
      c.copies⟩ waiting := by
  obtain ⟨n, hn, rfl⟩ := h.connect (List.mem_cons_self ..)
  have hall : ∀ e ∈ source.edges n, c.Copied e.target :=
    fun e he => h.ready.1 e.target (List.mem_map.2 ⟨e, he, rfl⟩)
  -- only the node of the copy changes, and all targets of its edges have copies by now
  have hnode : ∀ {k : Nat}, k ≠ copy →
      (c.graph.setEdges copy (Edges.mapTargets (image c.copies) (source.edges n))).node k =
        c.graph.node k := by
    intro k hk
    rw [Graph.node_setEdges, if_neg fun hc => hk hc.1.symm]
  have hself : (c.graph.setEdges copy (Edges.mapTargets (image c.copies) (source.edges n))).node
      copy = { c.graph.node copy with
        edges := Edges.mapTargets (image c.copies) (source.edges n) } := by
    rw [Graph.node_setEdges, if_pos ⟨rfl, h.copy_lt hn⟩]
  refine { h with
    size_le := ?_
    old := fun hm => ?_
    copy_lt := fun hm => ?_
    surj := fun h₁ h₂ => h.surj h₁ ?_
    node := fun {m k} hm => ?_
    edges := fun {m k} hm => ?_
    connect := fun hm => h.connect (List.mem_cons_of_mem _ hm)
    enter := fun hm => h.enter (List.mem_cons_of_mem _ hm)
    ready := h.ready.2.mono fun m hm => ?_
    start := ?_ }
  · rw [Graph.size_setEdges]
    exact h.size_le
  · rw [hnode (Nat.ne_of_lt (Nat.lt_of_lt_of_le hm (h.le_copy hn)))]
    exact h.old hm
  · rw [Graph.size_setEdges]
    exact h.copy_lt hm
  · rwa [Graph.size_setEdges] at h₂
  · obtain ⟨es, hes⟩ := h.node hm
    by_cases hk : k = copy
    · subst hk
      rw [hself, hes]
      exact ⟨_, rfl⟩
    · rw [hnode hk]
      exact ⟨es, hes⟩
  · by_cases hk : k = copy
    · subst hk
      cases h.inj hm hn
      refine .inr ⟨?_, hall⟩
      rw [Graph.edges, hself]
    · rcases h.edges hm with hmem | ⟨heq, hall'⟩
      · rcases List.mem_cons.1 hmem with heq | hmem
        · exact absurd (Task.connect.inj heq).1 hk
        · exact .inl hmem
      · refine .inr ⟨?_, hall'⟩
        rw [Graph.edges, hnode hk]
        exact heq
  · rcases hm with hm | hm
    · exact hm
    · cases hm
  · rcases h.start with ⟨-, htasks⟩ | hroot
    · cases htasks
    · exact .inr hroot

end Growing

/-- What a turn does. -/
theorem turn_next {source : Graph} {c c' : Copying} {task : Task} {tasks : List Task}
    (h : turn (fun _ => source) c task = .next c' tasks) :
    (∃ n k, task = .enter n ∧ copyIn? c.copies n = some k ∧ c' = c ∧ tasks = []) ∨
    (∃ n, task = .enter n ∧ copyIn? c.copies n = none ∧ c' = begun source c n ∧
      tasks = awaited source c n) ∨
    ∃ copy list, task = .connect copy list ∧
      c' = ⟨c.graph.setEdges copy (Edges.mapTargets (image c.copies) list), c.copies⟩ ∧
      tasks = [] := by
  cases task with
  | enter n =>
    simp only [turn] at h
    cases hk : copyIn? c.copies n with
    | some k =>
      rw [hk] at h
      cases h
      exact .inl ⟨n, k, rfl, hk, rfl, rfl⟩
    | none =>
      rw [hk] at h
      cases h
      exact .inr (.inl ⟨n, rfl, hk, rfl, List.foldr_cons_eq_append ..⟩)
  | connect copy list =>
    cases h
    exact .inr (.inr ⟨copy, list, rfl, rfl, rfl⟩)

theorem keeps_growing (g source : Graph) (root : NodeId) :
    Agenda.Keeps (turn fun _ => source) (Growing g source root) := by
  refine ⟨fun {c task waiting c' tasks} h ht => ?_⟩
  rcases turn_next ht with ⟨n, k, rfl, hk, rfl, rfl⟩ | ⟨n, rfl, hn, rfl, rfl⟩ |
    ⟨copy, list, rfl, rfl, rfl⟩
  · exact h.pop hk
  · exact h.push hn
  · exact h.connected

/-- The walk is done within its bound. -/
theorem run_turn_ne_spent {g source : Graph} {root : NodeId} (hwhole : source.Whole root)
    (c' : Copying) (waiting : List Task) :
    Agenda.run (turn fun _ => source) (2 * source.weight) ⟨g, .replicate source.size none⟩
      [.enter root] ≠ .spent c' waiting := by
  refine (keeps_growing g source root).run_ne_spent_of_marks source.size
    (fun n => (source.edges n).length + 1) Copied ?_
    (growing_start g source root _) ?_ c' waiting
  · intro c task rest c' tasks h ht
    rcases turn_next ht with ⟨n, k, rfl, hk, rfl, rfl⟩ | ⟨n, rfl, hn, rfl, rfl⟩ |
      ⟨copy, list, rfl, rfl, rfl⟩
    · exact .inl ⟨rfl, fun n => Iff.rfl⟩
    · refine .inr ⟨n, hwhole (h.enter (List.mem_cons_self ..)), ?_, fun m => ?_, ?_⟩
      · rintro ⟨k, hk⟩
        rw [hn] at hk
        cases hk
      · simp only [Copied, begun, copyIn?_noteIn]
        by_cases hm : n = m
        · simp [hm]
        · simp [hm, Ne.symm hm]
      · simp [awaited]
    · exact .inl ⟨rfl, fun n => Iff.rfl⟩
  · have := source.leftOver_lt_weight (fun n => (source.edges n).length + 1)
      (Copied ⟨g, .replicate source.size none⟩) (fun n => by omega)
    simp only [List.length_singleton]
    omega

/-- A graph that is copied within itself is read as it was, for no edge leads to new nodes. -/
theorem run_turn_id {g : Graph} {root : NodeId} (hwhole : g.Whole root) (fuel : Nat) :
    Agenda.run (turn id) fuel ⟨g, .replicate g.size none⟩ [.enter root] =
      Agenda.run (turn fun _ => g) fuel ⟨g, .replicate g.size none⟩ [.enter root] := by
  refine (keeps_growing g g root).run_congr ?_ fuel (growing_start g g root g.size)
  intro c task waiting h
  cases task with
  | connect copy list => rfl
  | enter n =>
    have hn := hwhole (h.enter (List.mem_cons_self ..))
    have hold := h.old hn
    have hadd : ∀ type, (c.graph.add type []).node n = g.node n := fun type => by
      rw [Graph.node_add, if_neg (Nat.ne_of_lt (Nat.lt_of_lt_of_le hn h.size_le)), hold]
    simp only [turn, id, Graph.type, Graph.edges, hold, hadd]

end Copying

namespace Graph

theorem copyRounds_pos (g : Graph) : 0 < g.copyRounds := by
  rw [copyRounds, Nat.shiftLeft_eq, Nat.one_mul]
  exact Nat.two_pow_pos _

theorem weight_le_copyRounds (g : Graph) : g.weight ≤ 2 * g.weight * g.copyRounds :=
  Nat.le_trans (by omega) (Nat.le_mul_of_pos_right _ g.copyRounds_pos)

/-- How copying out of another graph ends. -/
theorem growing_copyFrom (g : Graph) {source : Graph} {root : NodeId}
    (hwhole : source.Whole root) :
    ∃ c : Copying, Copying.Growing g source root c [] ∧ g.copyFrom source root = c.graph := by
  have hwalk : g.copyFrom source root = (Agenda.run (Copying.turn fun _ => source)
      (2 * source.weight) ⟨g, .replicate source.size none⟩ [.enter root]).state.graph := by
    rw [copyFrom, Copying.walk, Agenda.runRounds_eq_run, Nat.mul_one]
  cases hrun : Agenda.run (Copying.turn fun _ => source) (2 * source.weight)
      ⟨g, .replicate source.size none⟩ [.enter root] with
  | spent c' waiting => exact absurd hrun (Copying.run_turn_ne_spent hwhole c' waiting)
  | halted c' answer waiting => cases answer
  | done c =>
    rw [hrun] at hwalk
    exact ⟨c, (Copying.keeps_growing g source root).done
      (Copying.growing_start g source root _) hrun, hwalk⟩

/-- The second graph is the first one and behind it, for each node of `source` below `root`, its
duplicate: the node with the same type, no notes, and the same edges to duplicates. `κ` gives the
duplicates. -/
structure Duplicates (g source : Graph) (root : NodeId) (g' : Graph) (κ : NodeId → NodeId) :
    Prop where
  generation_eq : g'.generation = g.generation
  size_le : g.size ≤ g'.size
  old : ∀ {n : Nat}, n < g.size → g'.node n = g.node n
  root_eq : κ root = g.size
  node : ∀ {n}, source.Below root n →
    g'.node (κ n) = .fresh (source.type n) (Edges.mapTargets κ (source.edges n))
  bijOn : Set.BijOn κ {n | source.Below root n} (Set.Ico g.size g'.size)

/-- Copying out of another graph adds duplicates, and nothing else. -/
theorem Whole.exists_duplicates (g : Graph) {source : Graph} {root : NodeId}
    (hwhole : source.Whole root) : ∃ κ, g.Duplicates source root (g.copyFrom source root) κ := by
  obtain ⟨c, h, hwalk⟩ := g.growing_copyFrom hwhole
  rw [hwalk]
  have htask : ∀ {task : Copying.Task}, task ∉ [] := List.not_mem_nil
  have hstart : Copying.copyIn? c.copies root = some g.size := by
    rcases h.start with ⟨-, hnil⟩ | hstart
    · cases hnil
    · exact hstart
  -- no task waits any more, so the targets of all copied nodes have copies
  have hcopied : ∀ {n}, source.Below root n → c.Copied n := by
    intro n hn
    induction hn with
    | refl => exact ⟨_, hstart⟩
    | tail _ hstep ih =>
      obtain ⟨k, hk⟩ := ih
      obtain ⟨e, he, rfl⟩ := hstep
      exact ((h.edges hk).resolve_left htask).2 e he
  have himage : ∀ {n}, source.Below root n →
      Copying.copyIn? c.copies n = some (Copying.image c.copies n) := by
    intro n hn
    obtain ⟨k, hk⟩ := hcopied hn
    rw [Copying.image, hk]
    rfl
  refine ⟨Copying.image c.copies, h.generation_eq, h.size_le, h.old, ?_, fun hn => ?_,
    fun n hn => ⟨h.le_copy (himage hn), h.copy_lt (himage hn)⟩, ?_, ?_⟩
  · rw [Copying.image, hstart]
    rfl
  · obtain ⟨edges, hnode⟩ := h.node (himage hn)
    obtain ⟨hedges, -⟩ := (h.edges (himage hn)).resolve_left htask
    rw [Graph.edges, hnode] at hedges
    rw [hnode, ← hedges]
    rfl
  · intro n hn m hm heq
    exact h.inj (himage hn) (heq ▸ himage hm)
  · rintro k ⟨hk, hlt⟩
    obtain ⟨n, hn⟩ := h.surj hk hlt
    exact ⟨n, h.below hn, Option.some.inj ((himage (h.below hn)).symm.trans hn)⟩

/-- The second graph is the first one with copies of the nodes of `source` below `root`, where `κ`
gives the copies. -/
structure CopyOf (g source : Graph) (root : NodeId) (g' : Graph) (κ : NodeId → NodeId) : Prop where
  generation_eq : g'.generation = g.generation
  size_le : g.size ≤ g'.size
  old : ∀ {n : Nat}, n < g.size → g'.node n = g.node n
  root_eq : κ root = g.size
  le_copy : ∀ {n}, source.shape.Reach root n → g.size ≤ κ n
  copy_lt : ∀ {n}, source.shape.Reach root n → κ n < g'.size
  node : ∀ {n}, source.shape.Reach root n →
    g'.node (κ n) = .fresh (source.type n) (Edges.mapTargets κ (source.edges n))
  inj : ∀ {n m}, source.shape.Reach root n → source.shape.Reach root m → κ n = κ m → n = m
  surj : ∀ {k : Nat}, g.size ≤ k → k < g'.size → ∃ n, source.shape.Reach root n ∧ κ n = k

/-- What is copied out of another graph is added, one node for each node below the root. -/
theorem copyFrom_spec (g : Graph) {source : Graph} (hs : source.Sound) {root : Nat}
    (hroot : root < source.size) : ∃ κ, g.CopyOf source root (g.copyFrom source root) κ := by
  obtain ⟨κ, h⟩ := (hs.edgesLead.whole hroot).exists_duplicates g
  refine ⟨κ, h.generation_eq, h.size_le, h.old, h.root_eq,
    fun hn => (h.bijOn.mapsTo (below_of_reach hn)).1,
    fun hn => (h.bijOn.mapsTo (below_of_reach hn)).2, fun hn => h.node (below_of_reach hn),
    fun hn hm heq => h.bijOn.injOn (below_of_reach hn) (below_of_reach hm) heq, fun hk hlt => ?_⟩
  obtain ⟨n, hn, hκ⟩ := h.bijOn.surjOn ⟨hk, hlt⟩
  exact ⟨n, hs.reach_of_below hn, hκ⟩

/-- A copy within a graph is one out of the graph as it was. -/
theorem copyWithin_eq {g : Graph} {root : NodeId} (hwhole : g.Whole root) :
    g.copyWithin root = g.copyFrom g root := by
  obtain ⟨extra, hextra⟩ := Nat.exists_eq_add_of_le
    (Nat.le_mul_of_pos_right (2 * g.weight) g.copyRounds_pos)
  simp only [copyWithin, copyFrom, Copying.walk, Agenda.runRounds_eq_run, Nat.mul_one, id,
    Copying.run_turn_id hwhole, hextra]
  rw [Agenda.run_add (Copying.run_turn_ne_spent hwhole)]

end Graph

end FeatureLogic
