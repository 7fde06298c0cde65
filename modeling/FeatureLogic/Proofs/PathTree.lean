import Mathlib.Data.List.Basic
import FeatureLogic.PathTree
import FeatureLogic.Proofs.Graph.Committed

/-!
What a tree of paths holds. A path leads to at most one node of a tree, and to a node leads at most
one path (`PathTree.follow?_inj`), so the position of a path (`PathTree.position?`) is that of no
other. To make sure of a path changes no position, and to mark its node changes its position only.
A walk from the root comes to every path once, to the paths that go on from it after it
(`PathTree.ways`).
-/

namespace FeatureLogic

namespace PathTree

/-- The node at the end of a path. -/
def follow? (t : PathTree) (path : List FeatureId) : Option Nat := path.foldlM t.child? 0

/-- The position that a path fills. -/
def position? (t : PathTree) (path : List FeatureId) : Option Nat :=
  (t.follow? path).bind fun n => (t.node n).position

/-! ## Paths and nodes -/

section Follow

variable {t : PathTree} {path path' : List FeatureId} {f : FeatureId} {n m : Nat}

@[simp] theorem follow?_nil (t : PathTree) : t.follow? [] = some 0 := rfl

theorem follow?_concat_eq_some :
    t.follow? (path ++ [f]) = some m ↔ ∃ n, t.follow? path = some n ∧ t.child? n f = some m := by
  simp only [follow?, List.foldlM_append, List.foldlM_cons, List.foldlM_nil]
  rw [Option.bind_eq_bind, Option.bind_eq_some_iff]
  simp

theorem follow?_lt (h : t.follow? path = some n) : n < t.size := by
  cases path using List.reverseRecOn with
  | nil =>
    cases h
    exact t.size_pos
  | append_singleton path f =>
    obtain ⟨k, -, hchild⟩ := follow?_concat_eq_some.1 h
    exact (t.child_lt hchild).2

/-- The root is at the end of the empty path only, as it is no child. -/
theorem eq_nil_of_follow?_zero (h : t.follow? path = some 0) : path = [] := by
  cases path using List.reverseRecOn with
  | nil => rfl
  | append_singleton path f =>
    obtain ⟨k, -, hchild⟩ := follow?_concat_eq_some.1 h
    exact absurd (t.child_lt hchild).1 (Nat.not_lt_zero k)

/-- Just one path leads to a node. -/
theorem follow?_inj (h : t.follow? path = some n) (h' : t.follow? path' = some n) :
    path = path' := by
  induction path using List.reverseRecOn generalizing path' n with
  | nil =>
    cases h
    exact (eq_nil_of_follow?_zero h').symm
  | append_singleton path f ih =>
    cases path' using List.reverseRecOn with
    | nil =>
      cases h'
      exact eq_nil_of_follow?_zero h
    | append_singleton path' f' =>
      obtain ⟨k, hk, hchild⟩ := follow?_concat_eq_some.1 h
      obtain ⟨k', hk', hchild'⟩ := follow?_concat_eq_some.1 h'
      obtain ⟨rfl, rfl⟩ := t.child_inj hchild hchild'
      rw [ih hk hk']

end Follow

/-- The root alone has no position. -/
theorem position?_root (path : List FeatureId) : root.position? path = none := by
  refine Option.bind_eq_none_iff.2 fun n hn => ?_
  have hlt : n < 1 := follow?_lt hn
  obtain rfl : n = 0 := Nat.lt_one_iff.1 hlt
  rfl

/-! ## Growing and marking -/

section Grow

variable {t : PathTree} {path : List FeatureId} {f : FeatureId} {n m : Nat}

theorem child?_grow (t : PathTree) (n m : Nat) (f f' : FeatureId) : (t.grow n f).child? m f' =
    if m = n ∧ n < t.size ∧ f = f' then some t.size else t.child? m f' :=
  PathNode.child?_grow ..

theorem position_node_grow (t : PathTree) (n m : Nat) (f : FeatureId) :
    ((t.grow n f).node m).position = (t.node m).position := by
  show ((PathNode.grow t.nodes n f).getD m default).position = _
  rw [PathNode.getD_grow]
  split
  · rename_i h
    rw [h.1]
    rfl
  · rfl

theorem follow?_grow (hnew : t.child? n f = none) (h : t.follow? path = some m) :
    (t.grow n f).follow? path = some m := by
  induction path using List.reverseRecOn generalizing m with
  | nil => exact h
  | append_singleton path f' ih =>
    obtain ⟨k, hk, hchild⟩ := follow?_concat_eq_some.1 h
    refine follow?_concat_eq_some.2 ⟨k, ih hk, ?_⟩
    rw [child?_grow, if_neg, hchild]
    rintro ⟨rfl, -, rfl⟩
    rw [hnew] at hchild
    cases hchild

/-- The new node is at the end of one path at most. -/
theorem follow?_of_grow (h : (t.grow n f).follow? path = some m) :
    t.follow? path = some m ∨ m = t.size := by
  induction path using List.reverseRecOn generalizing m with
  | nil => exact .inl h
  | append_singleton path f' ih =>
    obtain ⟨k, hk, hchild⟩ := follow?_concat_eq_some.1 h
    rw [child?_grow] at hchild
    split at hchild
    · exact .inr (Option.some.inj hchild).symm
    · rcases ih hk with hk | rfl
      · exact .inl (follow?_concat_eq_some.2 ⟨k, hk, hchild⟩)
      · -- the new node has no children
        have hlt := t.child_lt hchild
        exact absurd (hlt.1.trans hlt.2) (Nat.lt_irrefl _)

theorem node_size (t : PathTree) : t.node t.size = default := by
  simp [node, size, Array.getD_eq_getD_getElem?]

theorem position?_grow (hnew : t.child? n f = none) (path : List FeatureId) :
    (t.grow n f).position? path = t.position? path := by
  simp only [position?, position_node_grow]
  cases hpath : t.follow? path with
  | some m => rw [follow?_grow hnew hpath]
  | none =>
    cases hgrown : (t.grow n f).follow? path with
    | none => rfl
    | some m =>
      rcases follow?_of_grow hgrown with h | rfl
      · rw [hpath] at h
        cases h
      · rw [Option.bind_some, node_size]
        rfl

/-! ### Making sure of a path -/

theorem child?_ensureChild (hn : n < t.size) (f : FeatureId) :
    (t.ensureChild n f).2.child? n f = some (t.ensureChild n f).1 := by
  unfold ensureChild
  cases hchild : t.child? n f with
  | some m => exact hchild
  | none =>
    show (t.grow n f).child? n f = some t.size
    rw [child?_grow, if_pos ⟨rfl, hn, rfl⟩]

theorem follow?_ensureChild (n : Nat) (f : FeatureId) (h : t.follow? path = some m) :
    (t.ensureChild n f).2.follow? path = some m := by
  unfold ensureChild
  cases hchild : t.child? n f with
  | some k => exact h
  | none => exact follow?_grow hchild h

theorem follow?_ensureChild_concat (h : t.follow? path = some n) (f : FeatureId) :
    (t.ensureChild n f).2.follow? (path ++ [f]) = some (t.ensureChild n f).1 :=
  follow?_concat_eq_some.2 ⟨n, follow?_ensureChild n f h, child?_ensureChild (follow?_lt h) f⟩

theorem position?_ensureChild (t : PathTree) (n : Nat) (f : FeatureId) (path : List FeatureId) :
    (t.ensureChild n f).2.position? path = t.position? path := by
  unfold ensureChild
  cases hchild : t.child? n f with
  | some k => rfl
  | none => exact position?_grow hchild path

theorem ensure_concat (t : PathTree) (path : List FeatureId) (f : FeatureId) :
    t.ensure (path ++ [f]) = (t.ensure path).2.ensureChild (t.ensure path).1 f := by
  rw [ensure, List.foldl_append]
  rfl

theorem follow?_ensure (t : PathTree) (path : List FeatureId) :
    (t.ensure path).2.follow? path = some (t.ensure path).1 := by
  induction path using List.reverseRecOn with
  | nil => rfl
  | append_singleton path f ih =>
    rw [ensure_concat]
    exact follow?_ensureChild_concat ih f

theorem position?_ensure (t : PathTree) (path path' : List FeatureId) :
    (t.ensure path).2.position? path' = t.position? path' := by
  induction path using List.reverseRecOn with
  | nil => rfl
  | append_singleton path f ih => rw [ensure_concat, position?_ensureChild, ih]

/-! ### Marking -/

theorem follow?_mark (t : PathTree) (n position : Nat) (path : List FeatureId) :
    (t.mark n position).follow? path = t.follow? path := by
  have hchild : (t.mark n position).child? = t.child? :=
    funext fun m => funext fun f => PathNode.child?_mark ..
  rw [follow?, hchild]
  rfl

/-- To mark the node of a path changes the position of that path and no other. -/
theorem position?_mark (h : t.follow? path = some n) (position : Nat) (path' : List FeatureId) :
    (t.mark n position).position? path' =
      if path' = path then some position else t.position? path' := by
  have hnode : ∀ m, ((t.mark n position).node m).position =
      if m = n then some position else (t.node m).position := by
    intro m
    show ((PathNode.mark t.nodes n position).getD m default).position = _
    rw [PathNode.getD_mark]
    by_cases hm : m = n
    · rw [if_pos ⟨hm, follow?_lt h⟩, if_pos hm]
    · rw [if_neg fun hc => hm hc.1, if_neg hm]
      rfl
  rw [position?, position?, follow?_mark]
  by_cases hpath : path' = path
  · rw [if_pos hpath, hpath, h, Option.bind_some, hnode, if_pos rfl]
  · rw [if_neg hpath]
    refine Option.bind_congr fun m hm => ?_
    rw [hnode, if_neg]
    rintro rfl
    exact hpath (follow?_inj hm h)

end Grow

/-! ## The order of a walk -/

/-- The nodes below `n` with their paths, as a walk comes to them that goes down at most so many
levels; `path` leads to `n` itself. -/
def waysFrom (t : PathTree) : Nat → List FeatureId → Nat → List (List FeatureId × Nat)
  | 0, _, _ => []
  | depth + 1, path, n =>
    (path, n) :: (t.node n).children.flatMap fun e =>
      t.waysFrom depth (path ++ [e.feature]) e.target

/-- All nodes with their paths, as a walk from the root comes to them. -/
def ways (t : PathTree) : List (List FeatureId × Nat) := t.waysFrom t.size [] 0

/-- The paths that fill positions, as a walk from the root comes to them. -/
def paths (t : PathTree) : List (List FeatureId × Nat) :=
  t.ways.filterMap fun (path, n) => (t.node n).position.map fun position => (path, position)

section Ways

variable {t : PathTree} {path : List FeatureId} {n : Nat}

theorem mem_children_iff {e : Edge} :
    e ∈ (t.node n).children ↔ t.child? n e.feature = some e.target :=
  (Edges.target?_eq_some_iff (t.sorted n)).symm

theorem exists_follow?_of_prefix {path' : List FeatureId} {m : Nat} (h : path <+: path')
    (hm : t.follow? path' = some m) : ∃ k, t.follow? path = some k := by
  obtain ⟨rest, rfl⟩ := h
  rw [follow?, List.foldlM_append] at hm
  obtain ⟨k, hk, -⟩ := Option.bind_eq_some_iff.1 hm
  exact ⟨k, hk⟩

theorem prefix_of_mem_waysFrom {depth : Nat} {w : List FeatureId × Nat}
    (h : w ∈ t.waysFrom depth path n) : path <+: w.1 := by
  induction depth generalizing path n with
  | zero => cases h
  | succ depth ih =>
    rcases List.mem_cons.1 h with rfl | h
    · exact List.prefix_refl _
    · obtain ⟨e, -, h⟩ := List.mem_flatMap.1 h
      exact (List.prefix_append ..).trans (ih h)

/-- A walk that goes down far enough comes to every path that goes on from where it begins. -/
theorem mem_waysFrom_iff {depth : Nat} (hn : t.follow? path = some n)
    (hdepth : t.size ≤ n + depth) {w : List FeatureId × Nat} :
    w ∈ t.waysFrom depth path n ↔ path <+: w.1 ∧ t.follow? w.1 = some w.2 := by
  induction depth generalizing path n with
  | zero => exact absurd (follow?_lt hn) (Nat.not_lt.2 hdepth)
  | succ depth ih =>
    -- the children have greater numbers, so that for them one level less is far enough
    have hchild : ∀ {f k}, t.child? n f = some k →
        (w ∈ t.waysFrom depth (path ++ [f]) k ↔ path ++ [f] <+: w.1 ∧ t.follow? w.1 = some w.2) := by
      intro f k hk
      have hlt := (t.child_lt hk).1
      exact ih (follow?_concat_eq_some.2 ⟨n, hn, hk⟩) (by omega)
    rw [waysFrom, List.mem_cons, List.mem_flatMap]
    constructor
    · rintro (rfl | ⟨e, he, hw⟩)
      · exact ⟨List.prefix_refl _, hn⟩
      · obtain ⟨hfront, hend⟩ := (hchild (mem_children_iff.1 he)).1 hw
        exact ⟨(List.prefix_append ..).trans hfront, hend⟩
    · rintro ⟨⟨rest, hrest⟩, hend⟩
      cases rest with
      | nil =>
        rw [List.append_nil] at hrest
        rw [← hrest, hn] at hend
        exact .inl (Prod.ext hrest.symm (Option.some.inj hend).symm)
      | cons f rest =>
        have hfront : path ++ [f] <+: w.1 := ⟨rest, by rw [← hrest]; simp⟩
        obtain ⟨k, hk⟩ := exists_follow?_of_prefix hfront hend
        obtain ⟨n', hn', hchild'⟩ := follow?_concat_eq_some.1 hk
        obtain rfl : n = n' := Option.some.inj (hn.symm.trans hn')
        exact .inr ⟨⟨f, k⟩, mem_children_iff.2 hchild', (hchild hchild').2 ⟨hfront, hend⟩⟩

theorem mem_ways_iff {w : List FeatureId × Nat} : w ∈ t.ways ↔ t.follow? w.1 = some w.2 := by
  rw [ways, mem_waysFrom_iff (follow?_nil t) (Nat.le_add_left ..)]
  exact and_iff_right List.nil_prefix

/-- A walk comes to a path before it comes to those that go on from it. -/
theorem pairwise_waysFrom (t : PathTree) (depth : Nat) (path : List FeatureId) (n : Nat) :
    (t.waysFrom depth path n).Pairwise fun w w' => ¬ w'.1 <+: w.1 := by
  induction depth generalizing path n with
  | zero => exact List.Pairwise.nil
  | succ depth ih =>
    refine List.pairwise_cons.2 ⟨fun w hw hfront => ?_, ?_⟩
    · obtain ⟨e, -, hw⟩ := List.mem_flatMap.1 hw
      have hlength := ((prefix_of_mem_waysFrom hw).trans hfront).length_le
      rw [List.length_append] at hlength
      exact absurd hlength (Nat.not_succ_le_self _)
    · refine List.pairwise_flatMap.2 ⟨fun e _ => ih .., (t.sorted n).imp ?_⟩
      -- the paths along two features part there
      intro d e hlt w hw w' hw' hfront
      have hd := prefix_of_mem_waysFrom hw
      have he := (prefix_of_mem_waysFrom hw').trans hfront
      have heq := (List.prefix_of_prefix_length_le hd he (by simp)).eq_of_length (by simp)
      simp only [List.append_cancel_left_eq, List.cons.injEq, and_true] at heq
      exact absurd heq (Nat.ne_of_lt hlt)

/-- No node is come to twice. -/
theorem length_ways_le (t : PathTree) : t.ways.length ≤ t.size := by
  have hnodup : (t.ways.map Prod.snd).Nodup := by
    refine List.pairwise_map.2 ((pairwise_waysFrom t ..).imp_of_mem ?_)
    intro w w' hw hw' hfront heq
    refine hfront ?_
    rw [follow?_inj (mem_ways_iff.1 hw) (heq ▸ mem_ways_iff.1 hw')]
  have hrange : t.ways.map Prod.snd ⊆ List.range t.size := by
    intro n hn
    obtain ⟨w, hw, rfl⟩ := List.mem_map.1 hn
    exact List.mem_range.2 (follow?_lt (mem_ways_iff.1 hw))
  simpa using (hnodup.subperm hrange).length_le

theorem mem_paths_iff {position : Nat} :
    (path, position) ∈ t.paths ↔ t.position? path = some position := by
  simp only [paths, List.mem_filterMap, Option.map_eq_some_iff, Prod.mk.injEq, position?,
    Option.bind_eq_some_iff]
  constructor
  · rintro ⟨w, hw, i, hi, rfl, rfl⟩
    exact ⟨w.2, mem_ways_iff.1 hw, hi⟩
  · rintro ⟨n, hn, hi⟩
    exact ⟨(path, n), mem_ways_iff.2 hn, position, hi, rfl, rfl⟩

theorem pairwise_paths (t : PathTree) : t.paths.Pairwise fun p p' => ¬ p'.1 <+: p.1 := by
  refine (pairwise_waysFrom t t.size [] 0).filterMap _ ?_
  intro w w' hfront p hp p' hp'
  obtain ⟨i, -, rfl⟩ := Option.map_eq_some_iff.1 hp
  obtain ⟨i', -, rfl⟩ := Option.map_eq_some_iff.1 hp'
  exact hfront

end Ways

end PathTree

end FeatureLogic
