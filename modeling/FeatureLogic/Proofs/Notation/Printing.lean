import Mathlib.Algebra.BigOperators.Group.Finset.Basic
import FeatureLogic.Notation.Printer
import FeatureLogic.Proofs.Graph.Trail

/-!
Printing. A node that is come to once is printed once, and a node that is come to more often has a
number from its first time on: so no structure is printed twice, and printing ends (`Printing`).
-/

open Relation

namespace FeatureLogic.Notation

theorem getD_setIfInBounds {α : Type} (a : Array α) (i j : Nat) (value default : α) :
    (a.setIfInBounds i value).getD j default =
      if i = j ∧ i < a.size then value else a.getD j default := by
  simp only [Array.getD_eq_getD_getElem?, Array.getElem?_setIfInBounds]
  by_cases h : i = j
  · subst h
    by_cases hi : i < a.size <;> simp [hi]
  · simp [h]

/-! ## How often nodes are come to -/

theorem size_foldl_modify (list : List NodeId) (counts : Array Nat) :
    (list.foldl (fun counts m => counts.modify m (· + 1)) counts).size = counts.size := by
  induction list generalizing counts with
  | nil => rfl
  | cons n rest ih => rw [List.foldl_cons, ih, Array.size_modify]

theorem getD_foldl_modify (list : List NodeId) {counts : Array Nat} {m : Nat}
    (hm : m < counts.size) :
    (list.foldl (fun counts m => counts.modify m (· + 1)) counts).getD m 0 =
      counts.getD m 0 + list.count m := by
  induction list generalizing counts with
  | nil => rfl
  | cons n rest ih =>
    rw [List.foldl_cons, ih (by simpa using hm), List.count_cons]
    simp only [Array.getD_eq_getD_getElem?, Array.getElem?_modify]
    by_cases h : n = m
    · subst h
      simp [Array.getElem?_eq_getElem hm]
      omega
    · simp [h]

theorem getD_foldl_foldl (next : NodeId → List NodeId) (order : List NodeId) {counts : Array Nat}
    {m : Nat} (hm : m < counts.size) :
    (order.foldl (fun counts n =>
      (next n).foldl (fun counts m => counts.modify m (· + 1)) counts) counts).getD m 0 =
      counts.getD m 0 + (order.map fun n => (next n).count m).sum := by
  induction order generalizing counts with
  | nil => rfl
  | cons n rest ih =>
    rw [List.foldl_cons, ih (by rwa [size_foldl_modify]), getD_foldl_modify _ hm, List.map_cons,
      List.sum_cons, Nat.add_assoc]

/-- A node is come to once as the root, and once for each edge to it. -/
theorem getD_arrivals {g : Graph} (hg : g.Linked) {root : Nat} (hroot : root < g.size) {m : Nat}
    (hm : m < g.size) : (arrivals g root).getD m 0 = (if g.deref root = m then 1 else 0) +
      Agenda.leftOver g.size (fun n => (g.currentTargets n).count m)
        (fun n => ¬ g.view.Reach (g.deref root) n) := by
  obtain ⟨hnodup, hmem⟩ := hg.currentTrail_spec hroot
  rw [← Agenda.sum_map_eq_leftOver _ hnodup hmem fun n hn => hg.reach_lt hroot hn, arrivals,
    ← Array.foldl_toList, getD_foldl_foldl _ _ (by simpa using hm)]
  congr 1
  simp only [Array.getD_eq_getD_getElem?, Array.getElem?_modify, Array.getElem?_replicate]
  split <;> simp

/-! ## Tasks -/

/-- The nodes that tasks print. -/
def nodesOf (tasks : List PrintTask) : List NodeId :=
  tasks.filterMap fun
    | .node n => some n
    | .text _ => none

@[simp] theorem nodesOf_text (text : String) (tasks : List PrintTask) :
    nodesOf (.text text :: tasks) = nodesOf tasks := rfl

@[simp] theorem nodesOf_node (n : NodeId) (tasks : List PrintTask) :
    nodesOf (.node n :: tasks) = n :: nodesOf tasks := rfl

theorem nodesOf_append (first second : List PrintTask) :
    nodesOf (first ++ second) = nodesOf first ++ nodesOf second := List.filterMap_append ..

namespace Scene

/-- What stands before the value of an edge. -/
def lead (s : Scene) (e : Edge) : String :=
  let name := " " ++ featureText s.names e.feature
  if s.isShared (s.graph.deref e.target) then name ++ " " else name

/-- The tasks of a node from some of its edges on. -/
def bodyFrom (s : Scene) (edges : List Edge) : List PrintTask :=
  edges.foldr (fun e tasks => .text (s.lead e) :: .node (s.graph.deref e.target) :: tasks)
    [.text "]"]

theorem bodyFrom_cons (s : Scene) (e : Edge) (edges : List Edge) :
    s.bodyFrom (e :: edges) =
      .text (s.lead e) :: .node (s.graph.deref e.target) :: s.bodyFrom edges := rfl

theorem body_eq (s : Scene) (n : NodeId) : s.body n = s.bodyFrom (s.graph.currentEdges n) := rfl

theorem nodesOf_bodyFrom (s : Scene) (edges : List Edge) :
    nodesOf (s.bodyFrom edges) = edges.map fun e => s.graph.deref e.target := by
  induction edges with
  | nil => rfl
  | cons e rest ih => rw [bodyFrom_cons, nodesOf_text, nodesOf_node, ih, List.map_cons]

theorem nodesOf_body (s : Scene) (n : NodeId) : nodesOf (s.body n) = s.graph.currentTargets n :=
  s.nodesOf_bodyFrom _

theorem nodesOf_body_append (s : Scene) (n : NodeId) (waiting : List PrintTask) :
    nodesOf (s.body n ++ waiting) = s.graph.currentTargets n ++ nodesOf waiting := by
  rw [nodesOf_append, s.nodesOf_body]

theorem length_body (s : Scene) (n : NodeId) :
    (s.body n).length = 2 * (s.graph.currentTargets n).length + 1 := by
  rw [body_eq, Graph.currentTargets, List.length_map]
  induction s.graph.currentEdges n with
  | nil => rfl
  | cons e rest ih =>
    rw [bodyFrom_cons, List.length_cons, List.length_cons, ih, List.length_cons]
    omega

/-- A turn prints a text; or the number of a coreference in place of its structure; or the beginning
of a structure, with the next number before it if the node is shared. -/
theorem turn_next {s : Scene} {p p' : Printed} {task : PrintTask} {tasks : List PrintTask}
    (ht : s.turn p task = .next p' tasks) :
    (∃ text, task = .text text ∧ p' = { p with text := p.text ++ text } ∧ tasks = []) ∨
    (∃ n number, task = .node n ∧ s.isShared n = true ∧ p.numbers.getD n none = some number ∧
      p' = { p with text := p.text ++ s!"#{number}" } ∧ tasks = []) ∨
    (∃ n number, task = .node n ∧ s.isShared n = true ∧ p.numbers.getD n none = none ∧
      number = p.count + 1 ∧ p' = ⟨p.text ++ s!"#{number}" ++ s.opening n,
        p.numbers.setIfInBounds n (some number), number⟩ ∧ tasks = s.body n) ∨
    ∃ n, task = .node n ∧ s.isShared n = false ∧
      p' = { p with text := p.text ++ s.opening n } ∧ tasks = s.body n := by
  cases task with
  | text text =>
    cases ht
    exact .inl ⟨text, rfl, rfl, rfl⟩
  | node n =>
    simp only [turn] at ht
    split at ht
    · rename_i hshared
      split at ht
      · rename_i number hsome
        cases ht
        exact .inr (.inl ⟨n, number, rfl, hshared, hsome, rfl, rfl⟩)
      · rename_i hnone
        cases ht
        exact .inr (.inr (.inl ⟨n, _, rfl, hshared, hnone, rfl, rfl, rfl⟩))
    · rename_i hshared
      cases ht
      exact .inr (.inr (.inr ⟨n, rfl, eq_false_of_ne_true hshared, rfl, rfl⟩))

/-- How often a node is still to be come to when the nodes `seen` are printed. -/
noncomputable def due (s : Scene) (root : NodeId) (seen : NodeId → Prop) (tasks : List PrintTask)
    (m : NodeId) : Nat :=
  (nodesOf tasks).count m + Agenda.leftOver s.graph.size
    (fun n => (s.graph.currentTargets n).count m)
    (fun n => ¬ s.graph.view.Reach (s.graph.deref root) n ∨ seen n)

/-- How many nodes are still to be printed. -/
noncomputable def unseen (s : Scene) (seen : NodeId → Prop) : Nat :=
  Agenda.leftOver s.graph.size (fun _ => 1) seen

/-- How many tasks these nodes lead to. -/
noncomputable def ahead (s : Scene) (seen : NodeId → Prop) : Nat :=
  Agenda.leftOver s.graph.size (fun n => (s.body n).length) seen

/-- When a node is printed, its edges are no longer ahead but among the tasks. -/
theorem due_body (s : Scene) {root : NodeId} {seen : NodeId → Prop} {n : Nat}
    (hlt : n < s.graph.size) (hreach : s.graph.view.Reach (s.graph.deref root) n) (hnew : ¬ seen n)
    (waiting : List PrintTask) (m : NodeId) :
    s.due root (fun m => m = n ∨ seen m) (s.body n ++ waiting) m + (if n = m then 1 else 0) =
      s.due root seen (.node n :: waiting) m := by
  have hmark : Agenda.leftOver s.graph.size (fun k => (s.graph.currentTargets k).count m)
      (fun k => ¬ s.graph.view.Reach (s.graph.deref root) k ∨ k = n ∨ seen k) +
        (s.graph.currentTargets n).count m =
      Agenda.leftOver s.graph.size (fun k => (s.graph.currentTargets k).count m)
        (fun k => ¬ s.graph.view.Reach (s.graph.deref root) k ∨ seen k) :=
    Agenda.leftOver_mark _ hlt (not_or.2 ⟨not_not.2 hreach, hnew⟩) fun k => or_left_comm
  rw [due, due, s.nodesOf_body_append, nodesOf_node, List.count_append, List.count_cons]
  simp only [beq_iff_eq]
  omega

/-- The tasks of the whole structure are within the bound of the printer. -/
theorem ahead_lt (s : Scene) (seen : NodeId → Prop) :
    1 + s.ahead seen ≤ 2 * s.graph.weight := by
  have htwice : s.ahead seen ≤ 2 * Agenda.leftOver s.graph.size
      (fun n => 1 + (s.graph.currentTargets n).length) seen := by
    refine Agenda.leftOver_le_mul (fun n => ?_) seen
    rw [s.length_body]
    omega
  have hweight := s.graph.leftOver_lt_weight
    (fun n => 1 + (s.graph.currentTargets n).length) seen fun n => by
      have := Graph.Entangled.length_currentEdges_le s.graph n
      rw [Graph.currentTargets, List.length_map]
      omega
  omega

/-- A node that is come to more than once gets the next number when it is printed. -/
inductive Numbers (s : Scene) (n : NodeId) (p p' : Printed) : Prop
  | plain (hshared : s.isShared n = false) (hnumbers : p'.numbers = p.numbers)
    (hcount : p'.count = p.count)
  | shared (hshared : s.isShared n = true)
    (hnumbers : p'.numbers = p.numbers.setIfInBounds n (some (p.count + 1)))
    (hcount : p'.count = p.count + 1)

namespace Numbers

variable {s : Scene} {n : Nat} {p p' : Printed} (h : s.Numbers n p p')
include h

theorem numbers_size : p'.numbers.size = p.numbers.size := by
  cases h with
  | plain _ hnumbers _ => rw [hnumbers]
  | shared _ hnumbers _ => rw [hnumbers, Array.size_setIfInBounds]

theorem getD_eq (hn : n < p.numbers.size) (m : NodeId) : p'.numbers.getD m none =
    if m = n ∧ s.isShared n = true then some (p.count + 1) else p.numbers.getD m none := by
  cases h with
  | plain hshared hnumbers _ => simp [hnumbers, hshared]
  | shared hshared hnumbers _ =>
    rw [hnumbers, getD_setIfInBounds]
    simp [hshared, hn, eq_comm]

theorem count_eq : p'.count = p.count + if s.isShared n = true then 1 else 0 := by
  cases h with
  | plain hshared _ hcount => simp [hcount, hshared]
  | shared hshared _ hcount => simp [hcount, hshared]

end Numbers

/-- A scene that knows its structure. -/
structure Sound (s : Scene) (root : Nat) : Prop where
  graph : s.graph.Linked
  root_lt : root < s.graph.size
  arrivals_eq : s.arrivals = Notation.arrivals s.graph root

end Scene

/-! ## Printing -/

/-- What holds between two turns of printing, when the nodes `seen` are printed or under way. -/
structure Printing (s : Scene) (root : Nat) (seen : NodeId → Prop) (p : Printed)
    (tasks : List PrintTask) : Prop where
  reach : ∀ {n}, seen n ∨ n ∈ nodesOf tasks → s.graph.view.Reach (s.graph.deref root) n
  numbers_size : p.numbers.size = s.graph.size
  numbered : ∀ {n}, (p.numbers.getD n none).isSome ↔ seen n ∧ s.isShared n = true
  number_le : ∀ {n k}, p.numbers.getD n none = some k → k ≤ p.count
  number_inj : ∀ {n m k}, p.numbers.getD n none = some k → p.numbers.getD m none = some k → n = m
  count_le : p.count + Agenda.leftOver s.graph.size (fun _ => 1) seen ≤ s.graph.size
  due_le : ∀ {m : Nat}, m < s.graph.size → s.due root seen tasks m ≤ s.arrivals.getD m 0
  due_lt : ∀ {m}, seen m → s.due root seen tasks m < s.arrivals.getD m 0

namespace Printing

variable {s : Scene} {root : Nat} {seen : NodeId → Prop} {p : Printed} {waiting : List PrintTask}

theorem start (hs : s.Sound root) : Printing s root (fun _ => False)
    ⟨"", .replicate s.graph.size none, 0⟩ [.node (s.graph.deref root)] where
  reach hn := by
    rcases hn with hn | hn
    · cases hn
    · rw [List.mem_singleton.1 hn]
      exact ReflTransGen.refl
  numbers_size := Array.size_replicate
  numbered {n} := by
    simp only [Array.getD_eq_getD_getElem?, Array.getElem?_replicate]
    split <;> simp
  number_le {n k} h := by
    simp only [Array.getD_eq_getD_getElem?, Array.getElem?_replicate] at h
    split at h <;> cases h
  number_inj {n m k} h := by
    simp only [Array.getD_eq_getD_getElem?, Array.getElem?_replicate] at h
    split at h <;> cases h
  count_le := by
    simp [Agenda.leftOver]
  due_le {m} hm := by
    rw [hs.arrivals_eq, getD_arrivals hs.graph hs.root_lt hm, Scene.due]
    simp [nodesOf, List.count_cons]
  due_lt h := by cases h

/-- A task that prints no new node. -/
theorem drop {task : PrintTask} (h : Printing s root seen p (task :: waiting)) (text : String) :
    Printing s root seen { p with text } waiting := by
  have hsub : (nodesOf waiting).Sublist (nodesOf (task :: waiting)) :=
    (List.sublist_cons_self task waiting).filterMap _
  have hdue : ∀ m, s.due root seen waiting m ≤ s.due root seen (task :: waiting) m :=
    fun m => Nat.add_le_add_right (hsub.count_le m) _
  exact ⟨fun hn => h.reach (hn.imp_right fun hn => hsub.subset hn), h.numbers_size, h.numbered,
    h.number_le, h.number_inj, h.count_le, fun hm => Nat.le_trans (hdue _) (h.due_le hm),
    fun hm => Nat.lt_of_le_of_lt (hdue _) (h.due_lt hm)⟩

variable {n : NodeId}

theorem lt_size (hs : s.Sound root) (h : Printing s root seen p (.node n :: waiting)) :
    n < s.graph.size :=
  hs.graph.reach_lt hs.root_lt (h.reach (.inr (List.mem_cons_self ..)))

/-- A node without a number was not printed before. -/
theorem not_seen (h : Printing s root seen p (.node n :: waiting))
    (hnew : s.isShared n = true → p.numbers.getD n none = none) : ¬ seen n := by
  intro hseen
  cases hshared : s.isShared n with
  | true =>
    have hsome := h.numbered.2 ⟨hseen, hshared⟩
    rw [hnew hshared] at hsome
    cases hsome
  | false =>
    -- it would be come to a second time
    have hlt := h.due_lt hseen
    have hone : s.arrivals.getD n 0 ≤ 1 := by simpa [Scene.isShared] using hshared
    have hcount : 1 ≤ (nodesOf (.node n :: waiting)).count n := by simp
    rw [Scene.due] at hlt
    omega

/-- A node that is printed for the first time, with a number if it is come to more than once. -/
theorem visit (hs : s.Sound root) (h : Printing s root seen p (.node n :: waiting))
    (hnew : ¬ seen n) {p' : Printed} (hp : s.Numbers n p p') :
    Printing s root (fun m => m = n ∨ seen m) p' (s.body n ++ waiting) := by
  have hlt := h.lt_size hs
  have hreach := h.reach (.inr (List.mem_cons_self ..))
  have hunseen : Agenda.leftOver s.graph.size (fun _ => 1) (fun m => m = n ∨ seen m) + 1 =
      Agenda.leftOver s.graph.size (fun _ => 1) seen :=
    Agenda.leftOver_mark (fun _ => 1) hlt hnew fun _ => Iff.rfl
  have hdue := s.due_body hlt hreach hnew waiting
  have hnumber := hp.getD_eq (h.numbers_size ▸ hlt)
  have hcount := hp.count_eq
  refine ⟨fun {m} hm => ?_, hp.numbers_size.trans h.numbers_size, fun {m} => ?_, fun {m k} hk => ?_,
    fun {m m' k} hk hk' => ?_, ?_, fun {m} hm => ?_, fun {m} hm => ?_⟩
  · rw [s.nodesOf_body_append, List.mem_append] at hm
    rcases hm with (rfl | hm) | hm | hm
    · exact hreach
    · exact h.reach (.inl hm)
    · exact hreach.tail (Graph.mem_currentTargets.1 hm)
    · exact h.reach (.inr (List.mem_cons_of_mem _ hm))
  · rw [hnumber]
    split
    · rename_i hm
      simp [hm]
    · rename_i hm
      rw [h.numbered]
      refine ⟨fun hm => ⟨.inr hm.1, hm.2⟩, fun ⟨hseen, hshared⟩ => ⟨?_, hshared⟩⟩
      exact hseen.resolve_left fun heq => hm ⟨heq, heq ▸ hshared⟩
  · rw [hnumber] at hk
    split at hk
    · rename_i hm
      cases hk
      simp [hcount, hm.2]
    · exact Nat.le_trans (h.number_le hk) (hcount ▸ Nat.le_add_right ..)
  · rw [hnumber] at hk hk'
    -- a new number is larger than those given before
    have hold : ∀ {m}, p.numbers.getD m none = some (p.count + 1) → False :=
      fun hm => Nat.not_succ_le_self _ (h.number_le hm)
    split at hk <;> split at hk'
    · rename_i hm hm'
      exact hm.1.trans hm'.1.symm
    · cases hk
      exact (hold hk').elim
    · cases hk'
      exact (hold hk).elim
    · exact h.number_inj hk hk'
  · have := h.count_le
    split at hcount <;> omega
  · have := hdue m
    have := h.due_le hm
    omega
  · have := hdue m
    -- the one arrival that was due at the node is over
    by_cases heq : n = m
    · have := h.due_le (heq ▸ hlt)
      simp only [heq, if_true] at *
      omega
    · have := h.due_lt (hm.resolve_left (Ne.symm heq))
      simp only [heq, if_false] at *
      omega

/-- A turn prints no new node, or one for the first time, with a number if it is come to more than
once. -/
theorem turn_cases {task : PrintTask} (h : Printing s root seen p (task :: waiting)) {p' : Printed}
    {tasks : List PrintTask} (ht : s.turn p task = .next p' tasks) :
    ((∃ text, p' = { p with text }) ∧ tasks = [] ∧ ∀ n, task = .node n → seen n) ∨
      ∃ n, task = .node n ∧ ¬ seen n ∧ s.Numbers n p p' ∧ tasks = s.body n := by
  rcases Scene.turn_next ht with ⟨text, rfl, rfl, rfl⟩ | ⟨n, number, rfl, -, hsome, rfl, rfl⟩ |
    ⟨n, number, rfl, hshared, hnone, rfl, rfl, rfl⟩ | ⟨n, rfl, hshared, rfl, rfl⟩
  · exact .inl ⟨⟨_, rfl⟩, rfl, nofun⟩
  · refine .inl ⟨⟨_, rfl⟩, rfl, fun m hm => ?_⟩
    cases hm
    exact (h.numbered.1 (by rw [hsome]; rfl)).1
  · exact .inr ⟨n, rfl, h.not_seen fun _ => hnone, .shared hshared rfl rfl, rfl⟩
  · have hplain : s.isShared n ≠ true := ne_true_of_eq_false hshared
    exact .inr ⟨n, rfl, h.not_seen fun hs => absurd hs hplain, .plain hshared rfl rfl, rfl⟩

/-- A turn that goes on prints at most one node, and that for the first time. -/
theorem turn (hs : s.Sound root) {task : PrintTask} (h : Printing s root seen p (task :: waiting))
    {p' : Printed} {tasks : List PrintTask} (ht : s.turn p task = .next p' tasks) :
    ∃ seen', Printing s root seen' p' (tasks ++ waiting) ∧
      tasks.length + s.ahead seen' ≤ s.ahead seen := by
  rcases h.turn_cases ht with ⟨⟨text, rfl⟩, rfl, -⟩ | ⟨n, rfl, hnew, hp, rfl⟩
  · exact ⟨seen, h.drop _, Nat.le_of_eq (Nat.zero_add _)⟩
  · have hmark : s.ahead (fun m => m = n ∨ seen m) + (s.body n).length = s.ahead seen :=
      Agenda.leftOver_mark _ (h.lt_size hs) hnew fun _ => Iff.rfl
    exact ⟨_, h.visit hs hnew hp, by omega⟩

/-- Printing is done within its bound. -/
theorem run_ne_spent (hs : s.Sound root) {fuel : Nat} (hfuel : 2 * s.graph.weight ≤ fuel)
    (p' : Printed) (waiting : List PrintTask) :
    Agenda.run s.turn fuel ⟨"", .replicate s.graph.size none, 0⟩
      [.node (s.graph.deref root)] ≠ .spent p' waiting := by
  refine Agenda.run_ne_spent_of_left (Printing s root) s.ahead (fun h ht => h.turn hs ht)
    (start hs) ?_ p' waiting
  exact Nat.le_trans (s.ahead_lt fun _ => False) hfuel

end Printing

end FeatureLogic.Notation
