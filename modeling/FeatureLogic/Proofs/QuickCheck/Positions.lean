import FeatureLogic.Proofs.QuickCheck

/-!
Listed paths. Each of them is given the position that is its place in the list, but as a path has one
slot in the tree, of equal paths only the last keeps its position (`QuickCheck.position?_ofPaths`). So
a vector has the types at their ends in the order of the list, and nothing in the place of a path that
comes again.
-/

namespace FeatureLogic

namespace QuickCheck

theorem ofPaths_append_singleton (paths : List (List FeatureId)) (path : List FeatureId) :
    ofPaths (paths ++ [path]) = (ofPaths paths).addPath path paths.length := by
  rw [ofPaths, List.zipIdx_append, List.foldl_append]
  simp [ofPaths]

theorem size_ofPaths (paths : List (List FeatureId)) : (ofPaths paths).size = paths.length := by
  cases paths using List.reverseRecOn with
  | nil => rfl
  | append_singleton paths path =>
    rw [ofPaths_append_singleton, List.length_append]
    rfl

/-- A path that is added gets its position in place of the one that it had, and no other path gets
one or loses its own. -/
theorem position?_addPath (q : QuickCheck) (path path' : List FeatureId) (position : Nat) :
    (q.addPath path position).tree.position? path' =
      if path' = path then some position else q.tree.position? path' := by
  show ((q.tree.ensure path).2.mark (q.tree.ensure path).1 position).position? path' = _
  rw [PathTree.position?_mark (PathTree.follow?_ensure ..), PathTree.position?_ensure]

/-- Of listed paths each fills the position that it has in the list, unless it comes again. -/
theorem position?_ofPaths (paths : List (List FeatureId)) (path : List FeatureId) (i : Nat) :
    (ofPaths paths).tree.position? path = some i ↔
      paths[i]? = some path ∧ path ∉ paths.drop (i + 1) := by
  induction paths using List.reverseRecOn generalizing i with
  | nil =>
    have hnone : (ofPaths []).tree.position? path = none := PathTree.position?_root path
    simp [hnone]
  | append_singleton paths last ih =>
    rw [ofPaths_append_singleton, position?_addPath]
    by_cases hpath : path = last
    · subst hpath
      rw [if_pos rfl, Option.some_inj]
      constructor
      · rintro rfl
        simp
      · -- wherever else the path is in the list, it comes again at the end
        rintro ⟨hget, hlast⟩
        have hlt := (List.getElem?_eq_some_iff.1 hget).1
        by_contra hne
        have hle : i + 1 ≤ paths.length := by
          simp only [List.length_append, List.length_singleton] at hlt
          omega
        rw [List.drop_append_of_le_length hle] at hlast
        exact hlast (List.mem_append_right _ (List.mem_singleton_self path))
    · rw [if_neg hpath, ih]
      by_cases hi : i < paths.length
      · rw [List.getElem?_append_left hi, List.drop_append_of_le_length hi]
        simp [hpath]
      · have hnone : paths[i]? = none := List.getElem?_eq_none (Nat.le_of_not_lt hi)
        rw [hnone, List.getElem?_append_right (Nat.le_of_not_lt hi), List.getElem?_singleton]
        simp [Ne.symm hpath]

theorem mem_paths_ofPaths_iff {paths : List (List FeatureId)} {path : List FeatureId}
    {position : Nat} : (path, position) ∈ (ofPaths paths).paths ↔
      paths[position]? = some path ∧ path ∉ paths.drop (position + 1) :=
  PathTree.mem_paths_iff.trans (position?_ofPaths ..)

theorem mem_paths_ofPaths {paths : List (List FeatureId)} {path : List FeatureId} {position : Nat}
    (h : (path, position) ∈ (ofPaths paths).paths) : paths[position]? = some path :=
  (mem_paths_ofPaths_iff.1 h).1

/-- The vector of listed paths has a position for each of them, with the type at its end, or with
none if the same path comes again. -/
theorem vector_ofPaths (paths : List (List FeatureId)) (g : Graph) (root : NodeId) :
    (ofPaths paths).vector g root = paths.mapIdx fun i path =>
      if path ∈ paths.drop (i + 1) then .bottom else typeAt g root path := by
  refine List.ext_getElem? fun i => ?_
  rw [List.getElem?_mapIdx]
  cases hpath : paths[i]? with
  | none =>
    rw [Option.map_none, List.getElem?_eq_none_iff, length_vector, size_ofPaths]
    exact List.getElem?_eq_none_iff.1 hpath
  | some path =>
    have hlt : i < (ofPaths paths).size := by
      rw [size_ofPaths]
      exact (List.getElem?_eq_some_iff.1 hpath).1
    have honly : ∀ path', (path', i) ∈ (ofPaths paths).paths → path' = path := fun path' h =>
      Option.some.inj ((mem_paths_ofPaths h).symm.trans hpath)
    rw [Option.map_some]
    split
    · rename_i hagain
      have hread : (ofPaths paths).readPath? g root i = none := by
        refine lastAt?_eq_none_iff.2 fun path' h => ?_
        obtain rfl := honly path' h
        exact absurd hagain (mem_paths_ofPaths_iff.1 h).2
      rw [getElem?_vector g root hlt, hread]
      rfl
    · rename_i hlast
      exact getElem?_vector_of_unique g root hlt (mem_paths_ofPaths_iff.2 ⟨hpath, hlast⟩) honly

/-- A node that has one edge, to another node. -/
def linked : Graph := .ofNodes [(.of 1, [⟨0, 1⟩]), (.of 2, [])]

/-- The first of two equal paths does not fill its position. -/
theorem not_vector_ofPaths_fills : ¬ ∀ (paths : List (List FeatureId)) (g : Graph) (root : NodeId)
    (i : Nat) (path : List FeatureId), paths[i]? = some path →
      ((ofPaths paths).vector g root)[i]? = some (typeAt g root path) := by
  intro hall
  have h := hall [[0], [0]] linked 0 0 [0] rfl
  have hvector : (ofPaths [[0], [0]]).vector linked 0 = [.bottom, .of 2] := by decide +kernel
  have htype : typeAt linked 0 [0] = .of 2 := by decide +kernel
  rw [hvector, htype] at h
  cases h

end QuickCheck

end FeatureLogic
