import FeatureLogic.Graph.Edge

/-!
Trees of paths. Paths that begin alike share the nodes of their beginnings, so every node stands for
one path. A node has a slot for the position that its path fills; a position that is written later
takes the place of the one that was there.
-/

namespace FeatureLogic

/-- A node of a tree of paths. -/
structure PathNode where
  /-- The position that the path to here fills. -/
  position : Option Nat
  /-- The nodes one feature further on, by number. -/
  children : List Edge
  deriving DecidableEq, Repr

namespace PathNode

/-- A node without position and without children. -/
instance : Inhabited PathNode := ⟨none, []⟩

/-- The child of a node for a feature. -/
def child? (nodes : Array PathNode) (n : Nat) (feature : FeatureId) : Option Nat :=
  Edges.target? feature (nodes.getD n default).children

/-- Adds a node, the child of `parent` for a feature. -/
def grow (nodes : Array PathNode) (parent : Nat) (feature : FeatureId) : Array PathNode :=
  let child := nodes.size
  (nodes.modify parent fun node =>
    { node with children := Edges.put feature child node.children }).push default

/-- Writes a position into the slot of a node. -/
def mark (nodes : Array PathNode) (n position : Nat) : Array PathNode :=
  nodes.modify n fun node => { node with position := some position }

section Laws

variable (nodes : Array PathNode) (n m : Nat) (feature f : FeatureId) (position : Nat)

/-- The node that was changed is changed, and no other. -/
theorem getD_modify (change : PathNode → PathNode) :
    (nodes.modify n change).getD m default =
      if m = n ∧ n < nodes.size then change (nodes.getD n default) else nodes.getD m default := by
  simp only [Array.getD_eq_getD_getElem?, Array.getElem?_modify]
  by_cases h : m = n
  · subst h
    by_cases hm : m < nodes.size <;> simp [hm]
  · simp [h, Ne.symm h]

/-- What is added at the end reads as what was read there before. -/
theorem getD_push_default : (nodes.push default).getD m default = nodes.getD m default := by
  simp only [Array.getD_eq_getD_getElem?, Array.getElem?_push]
  split
  · rename_i h
    simp [h]
  · rfl

theorem size_grow : (grow nodes n feature).size = nodes.size + 1 := by simp [grow]

theorem size_mark : (mark nodes n position).size = nodes.size := by simp [mark]

theorem getD_grow : (grow nodes n feature).getD m default =
    if m = n ∧ n < nodes.size then
      { nodes.getD n default with
        children := Edges.put feature nodes.size (nodes.getD n default).children }
    else nodes.getD m default := by
  rw [grow, getD_push_default, getD_modify]

theorem getD_mark : (mark nodes n position).getD m default =
    if m = n ∧ n < nodes.size then { nodes.getD n default with position := some position }
    else nodes.getD m default :=
  getD_modify ..

/-- One child is new, all others stay. -/
theorem child?_grow : child? (grow nodes n feature) m f =
    if m = n ∧ n < nodes.size ∧ feature = f then some nodes.size else child? nodes m f := by
  rw [child?, child?, getD_grow]
  by_cases h : m = n ∧ n < nodes.size
  · obtain ⟨rfl, hlt⟩ := h
    simp only [hlt, true_and, and_true, if_true, Edges.target?_put]
  · rw [if_neg h, if_neg fun hc => h ⟨hc.1, hc.2.1⟩]

theorem child?_mark : child? (mark nodes n position) m f = child? nodes m f := by
  rw [child?, child?, getD_mark]
  split
  · rename_i h
    rw [h.1]
  · rfl

end Laws

end PathNode

/-- Nodes by number; node 0 is the root. -/
structure PathTree where
  nodes : Array PathNode
  size_pos : 0 < nodes.size
  /-- Children come in the order of their features. -/
  sorted : ∀ n, Edges.Sorted (nodes.getD n default).children
  /-- A child has a greater number than its parent. -/
  child_lt : ∀ {n feature m}, PathNode.child? nodes n feature = some m → n < m ∧ m < nodes.size
  /-- A node is the child of one node, for one feature. -/
  child_inj : ∀ {n n' feature feature' m}, PathNode.child? nodes n feature = some m →
    PathNode.child? nodes n' feature' = some m → n = n' ∧ feature = feature'
  deriving DecidableEq, Repr

namespace PathTree

/-- The root alone. -/
def root : PathTree where
  nodes := #[default]
  size_pos := Nat.one_pos
  sorted n := by cases n <;> exact Edges.sorted_nil
  child_lt {n _ _} h := by cases n <;> cases h
  child_inj {n _ _ _ _} h := by cases n <;> cases h

instance : Inhabited PathTree := ⟨root⟩

def size (t : PathTree) : Nat := t.nodes.size

def node (t : PathTree) (n : Nat) : PathNode := t.nodes.getD n default

/-- The child of a node for a feature. -/
def child? (t : PathTree) (n : Nat) (feature : FeatureId) : Option Nat :=
  PathNode.child? t.nodes n feature

/-- The tree with a new child of `parent` for a feature; its number is the old size. -/
def grow (t : PathTree) (parent : Nat) (feature : FeatureId) : PathTree where
  nodes := PathNode.grow t.nodes parent feature
  size_pos := by simp [PathNode.size_grow]
  sorted n := by
    rw [PathNode.getD_grow]
    split
    · exact Edges.sorted_put (t.sorted parent) ..
    · exact t.sorted n
  child_lt {n f m} h := by
    rw [PathNode.child?_grow] at h
    rw [PathNode.size_grow]
    split at h
    · rename_i hnew
      cases h
      exact ⟨hnew.1 ▸ hnew.2.1, Nat.lt_succ_self _⟩
    · exact (t.child_lt h).imp_right Nat.lt_succ_of_lt
  child_inj {n n' f f' m} h h' := by
    rw [PathNode.child?_grow] at h h'
    -- the new child has a number that no other child has
    split at h <;> split at h'
    · rename_i hn hn'
      exact ⟨hn.1.trans hn'.1.symm, hn.2.2.symm.trans hn'.2.2⟩
    · cases h
      exact absurd (t.child_lt h').2 (Nat.lt_irrefl _)
    · cases h'
      exact absurd (t.child_lt h).2 (Nat.lt_irrefl _)
    · exact t.child_inj h h'

/-- The child of a node for a feature, made if it is not there. -/
def ensureChild (t : PathTree) (parent : Nat) (feature : FeatureId) : Nat × PathTree :=
  match t.child? parent feature with
  | some child => (child, t)
  | none => (t.size, t.grow parent feature)

/-- The node of a path, made with those on the way where they are not there. -/
def ensure (t : PathTree) (path : List FeatureId) : Nat × PathTree :=
  path.foldl (fun (n, t) feature => t.ensureChild n feature) (0, t)

/-- Writes a position into the slot of a node, over the one that was there. -/
def mark (t : PathTree) (n position : Nat) : PathTree where
  nodes := PathNode.mark t.nodes n position
  size_pos := by
    rw [PathNode.size_mark]
    exact t.size_pos
  sorted m := by
    rw [PathNode.getD_mark]
    split
    · exact t.sorted n
    · exact t.sorted m
  child_lt h := by
    rw [PathNode.child?_mark] at h
    rw [PathNode.size_mark]
    exact t.child_lt h
  child_inj h h' := by
    rw [PathNode.child?_mark] at h h'
    exact t.child_inj h h'

end PathTree

end FeatureLogic
