import FeatureLogic.Proofs.Agenda
import FeatureLogic.Proofs.Fallible
import FeatureLogic.Proofs.QuickCheck
import FeatureLogic.Proofs.Sample
import FeatureLogic.Proofs.Thinning

/-!
Quick-check paths read from a structure. The walk along all paths of a structure without cycles
comes to its end, and then the paths with positions are those that end at a node whose type names
one (`QuickCheck.mem_paths_ofGraph_iff`). Several paths may name one position. Then what is read
there in one structure may be at the end of another path than what is read there in a second one;
this is the only case in which vectors do not compare like with like (`QuickCheck.readsAlike_iff`).
-/

namespace FeatureLogic

namespace QuickCheck

/-! ## What a structure encodes -/

/-- The position that the type of a node names, counted from zero. -/
def positionAt? (l : Lattice) (g : Graph) (n : NodeId) : Option Nat :=
  if (g.type n).isTop then none
  else (positionOf? ((l.typeName? (g.type n)).getD "")).map (· - 1)

/-- The path leads to a node whose type names the position. -/
def Encodes (l : Lattice) (g : Graph) (root : NodeId) (path : List FeatureId) (position : Nat) :
    Prop :=
  ∃ n, g.follow? root path = some n ∧ positionAt? l g n = some position

/-- A path that goes on from where one leads ends there, or goes on along an edge. -/
theorem Encodes.here_or_further {l : Lattice} {g : Graph} (hg : g.Sound) {root n : NodeId}
    {path path' : List FeatureId} {position : Nat} (h : Encodes l g root path' position)
    (hfront : path <+: path') (hn : g.follow? root path = some n) :
    path' = path ∧ positionAt? l g n = some position ∨
      ∃ e ∈ g.edges n, path ++ [e.feature] <+: path' := by
  obtain ⟨rest, rfl⟩ := hfront
  obtain ⟨m, hm, hposition⟩ := h
  cases rest with
  | nil =>
    rw [List.append_nil] at hm ⊢
    obtain rfl : n = m := Option.some.inj (hn.symm.trans hm)
    exact .inl ⟨rfl, hposition⟩
  | cons f rest =>
    have happend := Shape.follow?_append g.shape root path (f :: rest)
    rw [show g.shape.follow? root path = some n from hn] at happend
    have hrest : (g.value? n f).bind (fun k => g.follow? k rest) = some m :=
      happend.symm.trans hm
    obtain ⟨k, hk, -⟩ := Option.bind_eq_some_iff.1 hrest
    exact .inr ⟨⟨f, k⟩, hg.value_eq_some_iff.1 hk, rest, by simp⟩

theorem positionOf?_pos {name : String} {position : Nat}
    (h : positionOf? name = some position) : 0 < position := by
  unfold positionOf? at h
  exact of_decide_eq_true (Option.filter_eq_some_iff.1 h).2

/-- The position of a path is that of the node that it leads to. -/
theorem Encodes.positionAt {l : Lattice} {g : Graph} {root n : NodeId} {path : List FeatureId}
    {position : Nat} (h : Encodes l g root path position) (hn : g.follow? root path = some n) :
    positionAt? l g n = some position := by
  obtain ⟨m, hm, hposition⟩ := h
  obtain rfl : n = m := Option.some.inj (hn.symm.trans hm)
  exact hposition

/-! ## The walk along all paths -/

namespace Survey

/-- The tasks that entering a node leads to. -/
def children (g : Graph) (n : NodeId) (place : Nat) : List SurveyTask :=
  (g.edges n).map (.along · place) ++ [.leave n]

/-- Where the type of a node names a position, it is written at the place of the node. -/
theorem mark_ok {l : Lattice} {g : Graph} {s s' : Survey} {n : NodeId} {place : Nat}
    (h : s.mark l g n place = .ok s') : s'.onPath = s.onPath ∧
      s'.tree = (positionAt? l g n).elim s.tree (s.tree.mark place) ∧
      s.size ≤ s'.size ∧ ∀ i, positionAt? l g n = some i → i < s'.size := by
  simp only [Survey.mark] at h
  unfold positionAt?
  split at h
  · rename_i htop
    cases h
    simp [htop]
  · rename_i htop
    split at h
    · rename_i position hposition
      cases h
      rw [if_neg htop, hposition]
      have hpos := positionOf?_pos hposition
      refine ⟨rfl, rfl, Nat.le_max_left .., fun i hi => ?_⟩
      have hi : position - 1 = i := Option.some.inj hi
      show i < max s.size position
      omega
    · cases h

/-- What a turn that enters a node does. -/
theorem turn_enter {l : Lattice} {g : Graph} {s s' : Survey} {n : NodeId} {place : Nat}
    {tasks : List SurveyTask} (h : s.turn l g (.enter n place) = .next s' tasks) :
    s.onPath.getD n false = false ∧ tasks = children g n place ∧
      s'.onPath = s.onPath.setIfInBounds n true ∧
      s'.tree = (positionAt? l g n).elim s.tree (s.tree.mark place) ∧
      s.size ≤ s'.size ∧ ∀ i, positionAt? l g n = some i → i < s'.size := by
  unfold Survey.turn at h
  simp only at h
  split at h
  · cases h
  · rename_i hfree
    split at h
    · cases h
    · rename_i s₁ hs₁
      cases h
      obtain ⟨honPath, htree, hsize, hlt⟩ := mark_ok hs₁
      exact ⟨by simpa using hfree, rfl, by rw [honPath], htree, hsize, hlt⟩

/-- The path that a waiting task is on, in the tree and in the structure alike. -/
inductive On (g : Graph) (root : NodeId) (t : PathTree) : SurveyTask → List FeatureId → Prop
  | enter {path : List FeatureId} {n : NodeId} {place : Nat} (hplace : t.follow? path = some place)
    (hnode : g.follow? root path = some n) : On g root t (.enter n place) path
  | along {path : List FeatureId} {e : Edge} {place : Nat} (hplace : t.follow? path = some place)
    (hnode : g.follow? root (path ++ [e.feature]) = some e.target) :
    On g root t (.along e place) (path ++ [e.feature])

theorem on_enter_iff {g : Graph} {root n : NodeId} {t : PathTree} {place : Nat}
    {path : List FeatureId} : On g root t (.enter n place) path ↔
      t.follow? path = some place ∧ g.follow? root path = some n := by
  refine ⟨fun h => ?_, fun ⟨hplace, hnode⟩ => .enter hplace hnode⟩
  cases h with
  | enter hplace hnode => exact ⟨hplace, hnode⟩

/-- A tree that has all paths of another has the places of its tasks. -/
theorem On.mono {g : Graph} {root : NodeId} {t t' : PathTree} {task : SurveyTask}
    {path : List FeatureId} (h : On g root t task path)
    (htree : ∀ {path n}, t.follow? path = some n → t'.follow? path = some n) :
    On g root t' task path := by
  cases h with
  | enter hplace hnode => exact .enter (htree hplace) hnode
  | along hplace hnode => exact .along (htree hplace) hnode

/-- A task waits on the way along a path. -/
def Awaits (g : Graph) (root : NodeId) (t : PathTree) (tasks : List SurveyTask)
    (path : List FeatureId) : Prop :=
  ∃ task ∈ tasks, ∃ front, On g root t task front ∧ front <+: path

theorem awaits_cons_iff {g : Graph} {root : NodeId} {t : PathTree} {task : SurveyTask}
    {waiting : List SurveyTask} {path : List FeatureId} :
    Awaits g root t (task :: waiting) path ↔
      (∃ front, On g root t task front ∧ front <+: path) ∨ Awaits g root t waiting path := by
  simp only [Awaits, List.exists_mem_cons_iff]

theorem Awaits.mono {g : Graph} {root : NodeId} {t t' : PathTree} {tasks tasks' : List SurveyTask}
    {path : List FeatureId} (h : Awaits g root t tasks path)
    (htree : ∀ {path n}, t.follow? path = some n → t'.follow? path = some n)
    (htasks : ∀ task ∈ tasks, task ∈ tasks') : Awaits g root t' tasks' path := by
  obtain ⟨task, htask, front, hon, hfront⟩ := h
  exact ⟨task, htasks task htask, front, hon.mono htree, hfront⟩

/-- The second tree is the first with the position that `n` encodes written for a path. -/
structure Writes (l : Lattice) (g : Graph) (n : NodeId) (path : List FeatureId) (t t' : PathTree) :
    Prop where
  follow_eq : ∀ path', t'.follow? path' = t.follow? path'
  position_eq : ∀ path', t'.position? path' =
    if path' = path then (positionAt? l g n).or (t.position? path') else t.position? path'

section Writes

variable {l : Lattice} {g : Graph} {root n : NodeId} {path path' : List FeatureId}
  {t t' : PathTree} {place i : Nat}

/-- What is written at a place is written for its path. -/
theorem writes_mark (l : Lattice) (g : Graph) (n : NodeId) (hplace : t.follow? path = some place) :
    Writes l g n path t ((positionAt? l g n).elim t (t.mark place)) := by
  cases hposition : positionAt? l g n with
  | none => exact ⟨fun _ => rfl, fun path' => by simp [hposition]⟩
  | some position =>
    refine ⟨t.follow?_mark place position, fun path' => ?_⟩
    rw [hposition, Option.some_or]
    exact PathTree.position?_mark hplace position path'

theorem Writes.position_cases (h : Writes l g n path t t') (hi : t'.position? path' = some i) :
    path' = path ∧ positionAt? l g n = some i ∨ t.position? path' = some i := by
  rw [h.position_eq] at hi
  split at hi
  · rename_i hpath
    exact (Option.or_eq_some_iff.1 hi).imp (⟨hpath, ·⟩) And.right
  · exact .inr hi

/-- What a path encodes is written for it if it was, or if it is written now. -/
theorem Writes.position_of_encodes (h : Writes l g n path t t') (hn : g.follow? root path = some n)
    (hpath : Encodes l g root path' i) (hi : path' = path ∨ t.position? path' = some i) :
    t'.position? path' = some i := by
  rw [h.position_eq]
  by_cases heq : path' = path
  · subst heq
    rw [if_pos rfl, hpath.positionAt hn, Option.some_or]
  · rw [if_neg heq]
    exact hi.resolve_left heq

end Writes

/-- A walk that has come to `s` has written only positions that paths encode, and whatever a path
encodes is written or a task waits on the way along the path. -/
structure Surveys (l : Lattice) (g : Graph) (root : NodeId) (s : Survey)
    (tasks : List SurveyTask) : Prop where
  size_onPath : s.onPath.size = g.size
  on : ∀ task ∈ tasks, (∃ n, task = .leave n) ∨ ∃ path, On g root s.tree task path
  encodes : ∀ {path position}, s.tree.position? path = some position →
    Encodes l g root path position ∧ position < s.size
  complete : ∀ {path position}, Encodes l g root path position →
    s.tree.position? path = some position ∨ Awaits g root s.tree tasks path

theorem surveys_start (l : Lattice) (g : Graph) (root : NodeId) :
    Surveys l g root ⟨.replicate g.size false, .root, 0⟩ [.enter root 0] := by
  have hon : On g root .root (.enter root 0) [] := .enter rfl rfl
  exact {
    size_onPath := Array.size_replicate
    on := fun task htask => by
      obtain rfl := List.mem_singleton.1 htask
      exact .inr ⟨[], hon⟩
    encodes := fun {path _} h => by
      rw [PathTree.position?_root] at h
      cases h
    complete := fun _ => .inr ⟨_, List.mem_singleton_self _, [], hon, List.nil_prefix⟩ }

section Turns

variable {l : Lattice} {g : Graph} {root n : NodeId} {s s' : Survey} {place : Nat} {e : Edge}
  {tasks waiting : List SurveyTask}

/-- Tasks that still wait are on their paths when the tree has grown. -/
theorem Surveys.on_waiting {task : SurveyTask} {t : PathTree}
    (h : Surveys l g root s (task :: waiting))
    (htree : ∀ {path n}, s.tree.follow? path = some n → t.follow? path = some n) :
    ∀ task ∈ waiting, (∃ n, task = .leave n) ∨ ∃ path, On g root t task path := fun task htask =>
  (h.on task (List.mem_cons_of_mem _ htask)).imp_right fun ⟨path, hon⟩ => ⟨path, hon.mono htree⟩

theorem Surveys.enter (hg : g.Sound) (h : Surveys l g root s (.enter n place :: waiting))
    (ht : s.turn l g (.enter n place) = .next s' tasks) :
    Surveys l g root s' (tasks ++ waiting) := by
  obtain ⟨-, rfl, honPath, htree, hsize, hlt⟩ := turn_enter ht
  obtain ⟨_, ⟨⟩⟩ | ⟨path, hon⟩ := h.on _ (List.mem_cons_self ..)
  obtain ⟨hplace, hnode⟩ := on_enter_iff.1 hon
  have hwrites : Writes l g n path s.tree s'.tree := htree ▸ writes_mark l g n hplace
  have hkept : ∀ {path' m}, s.tree.follow? path' = some m → s'.tree.follow? path' = some m :=
    fun hpath => (hwrites.follow_eq _).trans hpath
  have halong : ∀ e ∈ g.edges n, On g root s'.tree (.along e place) (path ++ [e.feature]) := by
    intro e he
    refine .along (hkept hplace) ?_
    show g.shape.follow? root (path ++ [e.feature]) = some e.target
    exact Shape.follow?_concat_eq_some.2 ⟨n, hnode, hg.value_eq_some_iff.2 he⟩
  have hwaiting := h.on_waiting hkept
  exact {
    size_onPath := by rw [honPath, Array.size_setIfInBounds, h.size_onPath]
    on := fun task htask => by
      rw [children, List.append_assoc, List.mem_append, List.mem_map] at htask
      rcases htask with ⟨e, he, rfl⟩ | htask
      · exact .inr ⟨_, halong e he⟩
      · rcases List.mem_cons.1 htask with rfl | htask
        · exact .inl ⟨n, rfl⟩
        · exact hwaiting task htask
    encodes := fun {path' i} hi => by
      rcases hwrites.position_cases hi with ⟨rfl, hi⟩ | hi
      · exact ⟨⟨n, hnode, hi⟩, hlt i hi⟩
      · exact (h.encodes hi).imp_right fun hlt => Nat.lt_of_lt_of_le hlt hsize
    complete := fun {path' i} hpath => by
      rcases h.complete hpath with hold | hawaits
      · exact .inl (hwrites.position_of_encodes hnode hpath (.inr hold))
      · rcases awaits_cons_iff.1 hawaits with ⟨front, hfront, hle⟩ | hawaits
        · -- what the node leads to is written now, or waits on one of its edges
          obtain rfl := PathTree.follow?_inj (on_enter_iff.1 hfront).1 hplace
          rcases hpath.here_or_further hg hle hnode with ⟨hhere, -⟩ | ⟨e, he, hle⟩
          · exact .inl (hwrites.position_of_encodes hnode hpath (.inl hhere))
          · refine .inr ⟨_, List.mem_append_left _ (List.mem_append_left _ ?_), _, halong e he, hle⟩
            exact List.mem_map.2 ⟨e, he, rfl⟩
        · exact .inr (hawaits.mono hkept fun task => List.mem_append_right _) }

theorem Surveys.along (h : Surveys l g root s (.along e place :: waiting)) :
    Surveys l g root { s with tree := (s.tree.ensureChild place e.feature).2 }
      (.enter e.target (s.tree.ensureChild place e.feature).1 :: waiting) := by
  have hkept : ∀ {path m}, s.tree.follow? path = some m →
      (s.tree.ensureChild place e.feature).2.follow? path = some m :=
    fun hpath => PathTree.follow?_ensureChild place e.feature hpath
  have henter : ∀ {path}, On g root s.tree (.along e place) path →
      On g root (s.tree.ensureChild place e.feature).2
        (.enter e.target (s.tree.ensureChild place e.feature).1) path := by
    intro path hon
    cases hon with
    | along hplace hnode => exact .enter (PathTree.follow?_ensureChild_concat hplace _) hnode
  have hwaiting := h.on_waiting hkept
  have hposition := s.tree.position?_ensureChild place e.feature
  exact {
    size_onPath := h.size_onPath
    on := fun task htask => by
      rcases List.mem_cons.1 htask with rfl | htask
      · obtain ⟨_, ⟨⟩⟩ | ⟨path, hon⟩ := h.on _ (List.mem_cons_self ..)
        exact .inr ⟨path, henter hon⟩
      · exact hwaiting task htask
    encodes := fun hi => h.encodes ((hposition _).symm.trans hi)
    complete := fun hpath => by
      rcases h.complete hpath with hold | hawaits
      · exact .inl ((hposition _).trans hold)
      · refine .inr (awaits_cons_iff.2 ((awaits_cons_iff.1 hawaits).imp ?_ fun hrest => ?_))
        · rintro ⟨front, hfront, hle⟩
          exact ⟨front, henter hfront, hle⟩
        · exact hrest.mono hkept fun _ => id }

theorem Surveys.leave (h : Surveys l g root s (.leave n :: waiting)) :
    Surveys l g root { s with onPath := s.onPath.setIfInBounds n false } waiting where
  size_onPath := (Array.size_setIfInBounds ..).trans h.size_onPath
  on := h.on_waiting id
  encodes := h.encodes
  complete := fun hpath => (h.complete hpath).imp_right fun hawaits => by
    rcases awaits_cons_iff.1 hawaits with ⟨front, hfront, -⟩ | hrest
    · cases hfront
    · exact hrest

theorem keeps_surveys (hg : g.Sound) :
    Agenda.Keeps (Survey.turn l g) (Surveys l g root) := by
  refine ⟨fun {s task waiting s' tasks} h ht => ?_⟩
  cases task with
  | enter n place => exact h.enter hg ht
  | along e place =>
    cases ht
    exact h.along
  | leave n =>
    cases ht
    exact h.leave

end Turns

/-! ### How many turns there are -/

/-- The number of nodes that are not on the current path. -/
def free (s : Survey) : Nat := s.onPath.count false

/-- How many turns tasks take at most, when no node has more than `w - 4` edges and so many nodes
are not on the path. -/
def cost (w : Nat) : Nat → List SurveyTask → Nat
  | _, [] => 0
  | free, .enter .. :: rest => w ^ (free + 1) + cost w free rest
  | free, .along .. :: rest => w ^ (free + 1) + 1 + cost w free rest
  | free, .leave _ :: rest => 1 + cost w (free + 1) rest

theorem cost_mono {w k k' : Nat} (hw : 0 < w) (hk : k ≤ k') (tasks : List SurveyTask) :
    cost w k tasks ≤ cost w k' tasks := by
  induction tasks generalizing k k' with
  | nil => exact Nat.le_refl 0
  | cons task rest ih =>
    have hpow : w ^ (k + 1) ≤ w ^ (k' + 1) := Nat.pow_le_pow_right hw (Nat.succ_le_succ hk)
    cases task with
    | enter n place => exact Nat.add_le_add hpow (ih hk)
    | along e place => exact Nat.add_le_add (Nat.succ_le_succ hpow) (ih hk)
    | leave n => exact Nat.add_le_add_left (ih (Nat.succ_le_succ hk)) 1

theorem cost_children (w k : Nat) (g : Graph) (n : NodeId) (place : Nat)
    (waiting : List SurveyTask) : cost w k (children g n place ++ waiting) =
      (g.edges n).length * (w ^ (k + 1) + 1) + 1 + cost w (k + 1) waiting := by
  unfold children
  induction g.edges n with
  | nil => simp [cost]
  | cons e rest ih =>
    simp only [List.map_cons, List.cons_append, cost, ih, List.length_cons, Nat.add_mul]
    omega

theorem cost_lt {w k degree : Nat} (hw : degree + 4 ≤ w) :
    degree * (w ^ (k + 1) + 1) + 1 < w ^ (k + 2) := by
  have hle : w ≤ w ^ (k + 1) := Nat.le_self_pow (Nat.succ_ne_zero k) w
  calc degree * (w ^ (k + 1) + 1) + 1
      < degree * w ^ (k + 1) + 4 * w ^ (k + 1) := by
        rw [Nat.mul_add]
        omega
    _ = w ^ (k + 1) * (degree + 4) := by rw [← Nat.add_mul, Nat.mul_comm]
    _ ≤ w ^ (k + 1) * w := Nat.mul_le_mul_left _ hw
    _ = w ^ (k + 2) := (Nat.pow_succ ..).symm

theorem free_enter {onPath : Array Bool} {n : Nat} (hn : n < onPath.size)
    (hfree : onPath.getD n false = false) :
    (onPath.setIfInBounds n true).count false + 1 = onPath.count false := by
  have hget : onPath[n] = false := by simpa [hn] using hfree
  have hpos : 0 < onPath.count false := Array.count_pos_iff.2 (hget ▸ Array.getElem_mem hn)
  have hne : ¬ (true == false) = true := Bool.false_ne_true
  rw [Array.setIfInBounds, dif_pos hn, Array.count_set, hget, beq_self_eq_true, if_pos rfl,
    if_neg hne]
  omega

theorem free_leave (onPath : Array Bool) (n : Nat) :
    (onPath.setIfInBounds n false).count false ≤ onPath.count false + 1 := by
  unfold Array.setIfInBounds
  split
  · rw [Array.count_set, beq_self_eq_true, if_pos rfl]
    omega
  · exact Nat.le_succ _

theorem length_edges_lt_weight (g : Graph) {n : Nat} (hn : n < g.size) :
    (g.edges n).length + 2 ≤ g.weight := by
  have hle : 1 + (g.edges n).length + (g.node n).slots.pending.length ≤
      ∑ n ∈ Finset.range g.size, (1 + (g.edges n).length + (g.node n).slots.pending.length) :=
    Finset.single_le_sum (f := fun n => 1 + (g.edges n).length + (g.node n).slots.pending.length)
      (fun _ _ => Nat.zero_le _) (Finset.mem_range.2 hn)
  rw [g.weight_eq]
  omega

theorem run_turn_ne_spent {l : Lattice} {g : Graph} (hg : g.Sound) {root : Nat}
    (hroot : root < g.size) {fuel : Nat} (hfuel : (g.weight + 2) ^ (g.size + 1) ≤ fuel) (s : Survey)
    (waiting : List SurveyTask) :
    Agenda.run (Survey.turn l g) fuel ⟨.replicate g.size false, .root, 0⟩ [.enter root 0] ≠
      .spent s waiting := by
  have hw : 0 < g.weight + 2 := Nat.succ_pos _
  refine (keeps_surveys hg).run_ne_spent (fun s tasks => cost (g.weight + 2) s.free tasks) ?_ ?_
    (surveys_start l g root) ?_ s waiting
  · intro s task waiting _
    cases task with
    | enter n place => exact Nat.add_pos_left (Nat.pow_pos hw) _
    | along e place => exact Nat.add_pos_left (Nat.succ_pos _) _
    | leave n => exact Nat.add_pos_left Nat.one_pos _
  · intro s task waiting s' tasks h ht
    cases task with
    | enter n place =>
      obtain ⟨hnot, rfl, honPath, -⟩ := turn_enter ht
      obtain ⟨_, ⟨⟩⟩ | ⟨path, hon⟩ := h.on _ (List.mem_cons_self ..)
      have hn : n < g.size := hg.reach_lt hroot (Shape.reach_of_follow (on_enter_iff.1 hon).2)
      -- one node less is free while its values are gone through
      have hfree : s'.free + 1 = s.free := by
        rw [free, honPath]
        exact free_enter (h.size_onPath ▸ hn) hnot
      have hdegree := length_edges_lt_weight g hn
      have hlt := cost_lt (k := s'.free) (Nat.add_le_add_right hdegree 2)
      show cost _ s'.free (children g n place ++ waiting) < _ ^ (s.free + 1) + cost _ s.free waiting
      rw [cost_children, ← hfree]
      exact Nat.add_lt_add_right hlt _
    | along e place =>
      cases ht
      show _ ^ (s.free + 1) + cost _ s.free waiting < _ ^ (s.free + 1) + 1 + cost _ s.free waiting
      omega
    | leave n =>
      cases ht
      show cost _ (Array.count false _) waiting < 1 + cost _ (s.free + 1) waiting
      have hle := cost_mono hw (free_leave s.onPath n) waiting
      exact Nat.lt_of_le_of_lt hle (Nat.lt_add_of_pos_left Nat.one_pos)
  · refine Nat.le_trans ?_ hfuel
    show (g.weight + 2) ^ ((Array.replicate g.size false).count false + 1) + 0 ≤ _
    rw [Array.count_replicate_self]
    exact Nat.le_refl _

end Survey

/-! ## The paths of a structure -/

section OfGraph

variable {l : Lattice} {g : Graph} {root : Nat} {q : QuickCheck} (hg : g.Sound)
  (hroot : root < g.size) (h : ofGraph g l root = .ok q)
include hg hroot h

/-- Paths that are read from a structure were found on a walk that came to its end. -/
theorem exists_survey : ∃ s : Survey, q = ⟨s.tree, s.size⟩ ∧
    Survey.Surveys l g root s [] := by
  have hrun : Agenda.runRounds (Survey.turn l g) turnsPerRound
      (Nat.pow (g.weight + 2) (g.size + 2)) ⟨.replicate g.size false, .root, 0⟩ [.enter root 0] = _ :=
    Agenda.runRounds_eq_run ..
  have hfuel : (g.weight + 2) ^ (g.size + 1) ≤
      turnsPerRound * Nat.pow (g.weight + 2) (g.size + 2) := by
    refine (Nat.pow_le_pow_right (Nat.succ_pos _) (Nat.le_succ _)).trans ?_
    exact Nat.le_mul_of_pos_left _ (by decide)
  unfold ofGraph at h
  simp only [hrun] at h
  split at h
  · rename_i s hdone
    cases h
    exact ⟨s, rfl, (Survey.keeps_surveys hg).done (Survey.surveys_start l g root) hdone⟩
  · rename_i s waiting hspent
    exact absurd hspent (Survey.run_turn_ne_spent hg hroot hfuel s waiting)
  · cases h

/-- The paths that are read from a structure are those that encode positions. -/
theorem mem_paths_ofGraph_iff {path : List FeatureId} {position : Nat} :
    (path, position) ∈ q.paths ↔ Encodes l g root path position := by
  obtain ⟨s, rfl, hs⟩ := exists_survey hg hroot h
  refine PathTree.mem_paths_iff.trans ⟨fun hposition => (hs.encodes hposition).1, fun hpath => ?_⟩
  rcases hs.complete hpath with hposition | ⟨task, htask, -⟩
  · exact hposition
  · exact absurd htask List.not_mem_nil

/-- A vector has all positions that are encoded. -/
theorem lt_size_of_encodes {path : List FeatureId} {position : Nat}
    (hpath : Encodes l g root path position) : position < q.size := by
  have hmem := (mem_paths_ofGraph_iff hg hroot h).2 hpath
  obtain ⟨s, rfl, hs⟩ := exists_survey hg hroot h
  exact (hs.encodes (PathTree.mem_paths_iff.1 hmem)).2

end OfGraph

/-! ## Vectors of the same paths -/

/-- Where two vectors both have a type, these are the types at the ends of one path. -/
def ReadsAlike (q : QuickCheck) (x : Graph) (a : NodeId) (y : Graph) (b : NodeId) : Prop :=
  ∀ {position : Nat} {t u : TypeId}, (q.vector x a)[position]? = some t →
    (q.vector y b)[position]? = some u → t ≠ .bottom → u ≠ .bottom →
    ∃ path, q.readPath? x a position = some path ∧ q.readPath? y b position = some path ∧
      typeAt x a path = t ∧ typeAt y b path = u

/-- Nodes of the universal type along a path. -/
def spine (path : List FeatureId) : Graph :=
  .ofNodes (path.mapIdx (fun i f => (.top, [⟨f, i + 1⟩])) ++ [(.top, [])])

theorem node_spine (path : List FeatureId) (k : Nat) :
    (spine path).node k = .fresh .top (path[k]?.elim [] fun f => [⟨f, k + 1⟩]) := by
  simp only [Graph.node, spine, Graph.ofNodes, Array.getD_eq_getD_getElem?, List.getElem?_toArray,
    List.getElem?_map, List.getElem?_append, List.length_mapIdx, List.getElem?_mapIdx]
  by_cases hk : k < path.length
  · simp [hk]
  · rw [if_neg hk, List.getElem?_eq_none (Nat.le_of_not_lt hk)]
    cases k - path.length <;> rfl

theorem atRest_spine (path : List FeatureId) : (spine path).AtRest := fun k => by
  rw [node_spine]
  exact Nat.zero_ne_one

theorem value?_spine (path : List FeatureId) (k : Nat) (f : FeatureId) :
    (spine path).value? k f = if path[k]? = some f then some (k + 1) else none := by
  rw [Graph.value?, Graph.edges, node_spine]
  cases path[k]? with
  | none => rfl
  | some f' =>
    show Edges.target? f [⟨f', k + 1⟩] = _
    simp [Edges.target?_cons]

theorem isSome_follow?_spine (path p : List FeatureId) (k : Nat) :
    ((spine path).shape.follow? k p).isSome ↔ p <+: path.drop k := by
  induction p generalizing k with
  | nil => exact iff_of_true rfl List.nil_prefix
  | cons f rest ih =>
    have hfollow : (spine path).shape.follow? k (f :: rest) =
        ((spine path).value? k f).bind fun m => (spine path).shape.follow? m rest := rfl
    rw [hfollow, value?_spine]
    cases hk : path[k]? with
    | none =>
      rw [List.drop_eq_nil_of_le (List.getElem?_eq_none_iff.1 hk)]
      simp
    | some f' =>
      obtain ⟨hlt, rfl⟩ := List.getElem?_eq_some_iff.1 hk
      rw [List.drop_eq_getElem_cons hlt, List.cons_prefix_cons]
      by_cases hf : f = path[k]
      · subst hf
        simpa using ih (k + 1)
      · simp [hf, Ne.symm hf]

/-- What is there along a path are the paths that it goes on from. -/
theorem isSome_endOf?_spine (path p : List FeatureId) :
    (endOf? (spine path) 0 p).isSome ↔ p <+: path := by
  rw [endOf?_of_atRest (atRest_spine path), isSome_follow?_spine, List.drop_zero]

theorem typeAt_spine (path : List FeatureId) : typeAt (spine path) 0 path = .top := by
  have hend := (isSome_endOf?_spine path path).2 (List.prefix_refl _)
  obtain ⟨n, hn⟩ := Option.isSome_iff_exists.1 hend
  rw [typeAt, hn]
  show (spine path).currentType n = .top
  rw [(atRest_spine path).currentType_eq, Graph.type, node_spine]
  rfl

section OfGraph

variable {l : Lattice} {g : Graph} {root : Nat} {q : QuickCheck} (hg : g.Sound)
  (hroot : root < g.size) (h : ofGraph g l root = .ok q)
include hg hroot h

/-- A position is read at the longest path with it, along a path that has it itself. -/
theorem readPath?_spine {path : List FeatureId} {position : Nat}
    (hpath : Encodes l g root path position) :
    q.readPath? (spine path) 0 position = some path := by
  have hend := (isSome_endOf?_spine path path).2 (List.prefix_refl _)
  obtain ⟨path', hread, hlater⟩ := exists_lastAt?_of_pairwise q.tree.pairwise_paths
    ((mem_paths_ofGraph_iff hg hroot h).2 hpath) hend
  rcases hlater with rfl | hnot
  · exact hread
  · exact absurd ((isSome_endOf?_spine path path').1 (mem_of_lastAt? hread).2) hnot

/-- Whatever two structures are compared, wherever both vectors have a type the types are those at
one path, and vectors that are not compatible show one path whose ends have no common subtype, if
and only if no two paths encode one position. -/
theorem readsAlike_iff :
    (∀ (x : Graph) (a : NodeId) (y : Graph) (b : NodeId), q.ReadsAlike x a y b ∧
      ∀ {l' : Lattice}, l'.Sound → (compatible (q.vector x a) (q.vector y b) l').1 = false →
        ∃ path position, Encodes l g root path position ∧ typeAt x a path ≠ .bottom ∧
          typeAt y b path ≠ .bottom ∧ l'.glb (typeAt x a path) (typeAt y b path) = .bottom) ↔
    ∀ {path path' : List FeatureId} {position : Nat}, Encodes l g root path position →
      Encodes l g root path' position → path = path' := by
  constructor
  · intro halike path path' position hpath hpath'
    -- a spine along a path has a type at the position that the path encodes
    have hvector : ∀ {path : List FeatureId}, Encodes l g root path position →
        (q.vector (spine path) 0)[position]? = some .top := by
      intro path hpath
      rw [getElem?_vector _ _ (lt_size_of_encodes hg hroot h hpath),
        readPath?_spine hg hroot h hpath]
      exact congrArg some (typeAt_spine path)
    obtain ⟨both, hread, hread', -⟩ := (halike (spine path) 0 (spine path') 0).1 (hvector hpath)
      (hvector hpath') TypeId.noConfusion TypeId.noConfusion
    rw [readPath?_spine hg hroot h hpath] at hread
    rw [readPath?_spine hg hroot h hpath'] at hread'
    exact Option.some.inj (hread.trans hread'.symm)
  · intro honce x a y b
    have hreads : q.ReadsAlike x a y b := by
      intro position t u ht hu hne hne'
      obtain ⟨path, hread, hmem, htype⟩ := readPath?_of_ne_bottom ht hne
      obtain ⟨path', hread', hmem', htype'⟩ := readPath?_of_ne_bottom hu hne'
      obtain rfl := honce ((mem_paths_ofGraph_iff hg hroot h).1 hmem)
        ((mem_paths_ofGraph_iff hg hroot h).1 hmem')
      exact ⟨path, hread, hread', htype, htype'⟩
    refine ⟨hreads, fun {l'} hl' hclash => ?_⟩
    obtain ⟨position, t, u, ht, hu, hne, hne', hglb⟩ := exists_of_compatible_eq_false hl' hclash
    obtain ⟨path, hread, -, rfl, rfl⟩ := hreads ht hu hne hne'
    have hmem := (mem_of_lastAt? hread).1
    exact ⟨path, position, (mem_paths_ofGraph_iff hg hroot h).1 hmem, hne, hne', hglb⟩

end OfGraph

/-! ### Three positions, and one at two paths -/

/-- A lattice with numbers as atoms. -/
def numbered : Lattice := ⟨Sample.hierarchy, .ofList ["1", "2", "3"], {}⟩

/-- Three positions, the second of them behind a node of the universal type. -/
def threefold : Graph :=
  .ofNodes [(.of 5, [⟨0, 1⟩, ⟨1, 2⟩]), (.of 7, []), (.top, [⟨0, 3⟩]), (.of 6, [])]

/-- Vectors of the three paths compare like with like. -/
theorem readsAlike_iff_threefold : threefold.Sound ∧ 0 < threefold.size ∧
    ∃ q, ofGraph threefold numbered 0 = .ok q ∧ q.paths = [([], 0), ([0], 2), ([1, 0], 1)] ∧
      ∀ (x : Graph) (a : NodeId) (y : Graph) (b : NodeId), q.ReadsAlike x a y b := by
  have hg : threefold.Sound := (Graph.sound_ofNodes (by decide)).1
  have hroot : 0 < threefold.size := by decide
  have hread : (ofGraph threefold numbered 0).toOption.map paths =
      some [([], 0), ([0], 2), ([1, 0], 1)] := by decide +kernel
  obtain ⟨q, hq, hpaths⟩ := Option.map_eq_some_iff.1 hread
  replace hq := eq_ok_of_toOption hq
  refine ⟨hg, hroot, q, hq, hpaths, fun x a y b => ?_⟩
  refine ((readsAlike_iff hg hroot hq).2 (fun {path path' position} hpath hpath' => ?_) x a y b).1
  rw [← mem_paths_ofGraph_iff hg hroot hq, hpaths] at hpath hpath'
  simp only [List.mem_cons, Prod.mk.injEq, List.not_mem_nil, or_false] at hpath hpath'
  rcases hpath with ⟨rfl, rfl⟩ | ⟨rfl, rfl⟩ | ⟨rfl, rfl⟩ <;>
    exact Eq.symm (by simpa using hpath')

/-- Two paths encode the first position. -/
def twofold : Graph := .ofNodes [(.top, [⟨0, 1⟩, ⟨1, 2⟩]), (.of 5, []), (.of 5, [])]

/-- A structure that has the first of the paths only. -/
def firstOnly : Graph := .ofNodes [(.top, [⟨0, 1⟩]), (.of 1, [])]

/-- A structure that has the second of the paths only. -/
def secondOnly : Graph := .ofNodes [(.top, [⟨1, 1⟩]), (.of 2, [])]

/-- Each of two structures has one of the paths. What is compared are the types at different
paths. -/
theorem not_readsAlike : ¬ ∀ (g : Graph) (l : Lattice) (root : Nat) (q : QuickCheck), g.Sound →
    root < g.size → ofGraph g l root = .ok q →
      ∀ (x : Graph) (a : NodeId) (y : Graph) (b : NodeId) (position : Nat) (t u : TypeId),
        (q.vector x a)[position]? = some t → (q.vector y b)[position]? = some u → t ≠ .bottom →
          u ≠ .bottom → q.readPath? x a position = q.readPath? y b position := by
  intro hall
  have hread : (ofGraph twofold numbered 0).toOption.map (fun q =>
      (q.vector firstOnly 0, q.vector secondOnly 0, q.readPath? firstOnly 0 0,
        q.readPath? secondOnly 0 0)) = some ([.of 1], [.of 2], some [0], some [1]) := by
    decide +kernel
  obtain ⟨q, hq, hvectors⟩ := Option.map_eq_some_iff.1 hread
  simp only [Prod.mk.injEq] at hvectors
  obtain ⟨hx, hy, hpathx, hpathy⟩ := hvectors
  have hsame := hall twofold numbered 0 q (Graph.sound_ofNodes (by decide)).1 (by decide)
    (eq_ok_of_toOption hq) firstOnly 0 secondOnly 0 0 (.of 1) (.of 2) (hx ▸ rfl) (hy ▸ rfl)
    TypeId.noConfusion TypeId.noConfusion
  rw [hpathx, hpathy] at hsame
  cases hsame

end QuickCheck

end FeatureLogic
