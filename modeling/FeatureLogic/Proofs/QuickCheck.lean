import FeatureLogic.QuickCheck
import FeatureLogic.Proofs.Agenda
import FeatureLogic.Proofs.PathTree
import FeatureLogic.Proofs.Lattice.Knowledge

/-!
Quick-check vectors. A walk along the tree of paths finds for every position what is at the ends of
its paths (`QuickCheck.nodes_eq`). So the type in a position of a vector is that at the end of a path
with the position: of the last one of these paths that is there (`QuickCheck.readPath?`). Two vectors
that are not compatible show a position at which the types have no common subtype.
-/

namespace FeatureLogic

namespace QuickCheck

/-! ## What a walk finds -/

/-- The node at the end of a path in the current structure. -/
def endOf? (g : Graph) (root : NodeId) (path : List FeatureId) : Option NodeId :=
  path.foldlM g.currentValue? (g.deref root)

/-- The paths with the positions that they fill, as a walk comes to them. -/
def paths (q : QuickCheck) : List (List FeatureId × Nat) := q.tree.paths

/-- Puts the node found for a position in its place. -/
def fillWith (found : Array (Option NodeId)) (position : Nat) :
    Option NodeId → Array (Option NodeId)
  | some n => found.setIfInBounds position (some n)
  | none => found

/-- Puts the node at the end of a path in the place of a position, if there are both. -/
def fillAt (g : Graph) (root : NodeId) (t : PathTree) (found : Array (Option NodeId))
    (w : List FeatureId × Nat) : Array (Option NodeId) :=
  match (t.node w.2).position with
  | some position => fillWith found position (endOf? g root w.1)
  | none => found

section Collect

variable {g : Graph} {root : NodeId} {t : PathTree}

theorem endOf?_concat (g : Graph) (root : NodeId) (path : List FeatureId) (f : FeatureId) :
    endOf? g root (path ++ [f]) = (endOf? g root path).bind fun n => g.currentValue? n f := by
  simp only [endOf?, List.foldlM_append, List.foldlM_cons, List.foldlM_nil, bind_pure]
  rfl

/-- No path goes on from where one breaks off. -/
theorem endOf?_eq_none_of_prefix {path path' : List FeatureId} (h : path <+: path')
    (hnone : endOf? g root path = none) : endOf? g root path' = none := by
  obtain ⟨rest, rfl⟩ := h
  rw [endOf?, List.foldlM_append]
  exact Option.bind_eq_none_iff.2 fun n hn => by
    rw [show path.foldlM g.currentValue? (g.deref root) = none from hnone] at hn
    cases hn

/-- Below a path that is not there nothing is found. -/
theorem foldl_fillAt_of_none {path : List FeatureId} (hnone : endOf? g root path = none)
    (depth n : Nat) (found : Array (Option NodeId)) :
    (t.waysFrom depth path n).foldl (fillAt g root t) found = found := by
  refine List.foldlRecOn (motive := (· = found)) _ _ rfl fun found' heq w hw => ?_
  rw [heq, fillAt, endOf?_eq_none_of_prefix (PathTree.prefix_of_mem_waysFrom hw) hnone]
  cases (t.node w.2).position <;> rfl

/-- What is found at the nodes of the tree is found for the positions that they have. -/
theorem foldl_fillAt (ways : List (List FeatureId × Nat)) (found : Array (Option NodeId)) :
    ways.foldl (fillAt g root t) found =
      (ways.filterMap fun (path, n) => (t.node n).position.map (path, ·)).foldl
        (fun found (path, position) => fillWith found position (endOf? g root path)) found := by
  induction ways generalizing found with
  | nil => rfl
  | cons w rest ih =>
    rw [List.foldl_cons, ih, fillAt]
    cases hposition : (t.node w.2).position <;> simp [hposition]

theorem descend_cons_of_none {n : NodeId} {e : Edge} (h : g.currentValue? n e.feature = none)
    (rest : List Edge) : descend g n (e :: rest) = descend g n rest :=
  List.filterMap_cons_none (by rw [h, Option.map_none])

theorem descend_cons_of_some {n k : NodeId} {e : Edge} (h : g.currentValue? n e.feature = some k)
    (rest : List Edge) : descend g n (e :: rest) = (k, e.target) :: descend g n rest :=
  List.filterMap_cons_some (by rw [h, Option.map_some])

/-- A walk comes through the tasks, finds what is at the ends of the listed paths, and takes no more
turns than there are paths. -/
def Finds (t : PathTree) (g : Graph) (root : NodeId) (tasks : List (NodeId × Nat))
    (ways : List (List FeatureId × Nat)) : Prop :=
  ∀ found, ∃ turns ≤ ways.length,
    Agenda.Leads (collect t g) found tasks turns (ways.foldl (fillAt g root t) found)

theorem Finds.append {tasks tasks' : List (NodeId × Nat)} {ways ways' : List (List FeatureId × Nat)}
    (h : Finds t g root tasks ways) (h' : Finds t g root tasks' ways') :
    Finds t g root (tasks ++ tasks') (ways ++ ways') := by
  intro found
  obtain ⟨turns, hle, hleads⟩ := h found
  obtain ⟨turns', hle', hleads'⟩ := h' (ways.foldl (fillAt g root t) found)
  rw [List.foldl_append, List.length_append]
  exact ⟨turns + turns', Nat.add_le_add hle hle', hleads.append hleads'⟩

/-- Where the walks from the children find what is at the ends of their paths, so do they all
together. -/
theorem finds_descend {m : NodeId} {path : List FeatureId} (hm : endOf? g root path = some m)
    {depth : Nat} {edges : List Edge}
    (hedges : ∀ e ∈ edges, ∀ k, g.currentValue? m e.feature = some k →
      Finds t g root [(k, e.target)] (t.waysFrom depth (path ++ [e.feature]) e.target)) :
    Finds t g root (descend g m edges)
      (edges.flatMap fun e => t.waysFrom depth (path ++ [e.feature]) e.target) := by
  induction edges with
  | nil => exact fun found => ⟨0, Nat.le_refl 0, Agenda.leads_nil found⟩
  | cons e rest ih =>
    have hrest := ih fun d hd => hedges d (List.mem_cons_of_mem _ hd)
    rw [List.flatMap_cons]
    cases hvalue : g.currentValue? m e.feature with
    | some k =>
      rw [descend_cons_of_some hvalue]
      exact (hedges e (List.mem_cons_self ..) k hvalue).append hrest
    | none =>
      -- no turn is taken for the paths along a feature that has no value
      have hnone : endOf? g root (path ++ [e.feature]) = none := by
        rw [endOf?_concat, hm]
        exact hvalue
      intro found
      obtain ⟨turns, hle, hleads⟩ := hrest found
      rw [descend_cons_of_none hvalue, List.foldl_append, foldl_fillAt_of_none hnone]
      exact ⟨turns, hle.trans (by simp), hleads⟩

/-- A walk finds what is at the ends of the paths that go on from where it begins. -/
theorem finds_waysFrom {depth : Nat} {path : List FeatureId} {n m : Nat}
    (hn : t.follow? path = some n) (hdepth : t.size ≤ n + depth)
    (hm : endOf? g root path = some m) :
    Finds t g root [(m, n)] (t.waysFrom depth path n) := by
  induction depth generalizing path n m with
  | zero => exact absurd (PathTree.follow?_lt hn) (Nat.not_lt.2 hdepth)
  | succ depth ih =>
    have hbelow : Finds t g root (descend g m (t.node n).children)
        ((t.node n).children.flatMap fun e =>
          t.waysFrom depth (path ++ [e.feature]) e.target) := by
      refine finds_descend hm fun e he k hk => ?_
      have hchild := PathTree.mem_children_iff.1 he
      have hlt := (t.child_lt hchild).1
      refine ih (PathTree.follow?_concat_eq_some.2 ⟨n, hn, hchild⟩) (by omega) ?_
      rw [endOf?_concat, hm]
      exact hk
    intro found
    obtain ⟨turns, hle, hleads⟩ := hbelow (fillAt g root t found (path, n))
    refine ⟨turns + 1, Nat.succ_le_succ hle, Agenda.leads_of_next ?_ hleads⟩
    simp only [collect, fillAt, hm]
    rfl

end Collect

/-- What is found for the positions is what is at the ends of the paths: the walk takes no more
turns than the tree has nodes. -/
theorem nodes_eq (q : QuickCheck) (g : Graph) (root : NodeId) :
    q.nodes g root =
      (q.paths.foldl (fun found (path, position) => fillWith found position (endOf? g root path))
        (.replicate q.size none)).toList := by
  have hfinds : Finds q.tree g root [(g.deref root, 0)] q.tree.ways :=
    finds_waysFrom (PathTree.follow?_nil q.tree) (Nat.le_add_left ..) rfl
  obtain ⟨turns, hle, hleads⟩ := hfinds (.replicate q.size none)
  rw [nodes, hleads.run_eq_done (hle.trans q.tree.length_ways_le)]
  exact congrArg Array.toList (foldl_fillAt ..)

/-! ## The path of a position -/

/-- Where no episode is open, paths are paths of the committed structure. -/
theorem endOf?_of_atRest {g : Graph} (hr : g.AtRest) (root : NodeId) (path : List FeatureId) :
    endOf? g root path = g.shape.follow? root path := by
  rw [endOf?, hr.currentValue?_eq, hr.deref_eq]
  rfl

/-- The type at the end of a path, `bottom` where the path is not there. -/
def typeAt (g : Graph) (root : NodeId) (path : List FeatureId) : TypeId :=
  ((endOf? g root path).map g.currentType).getD .bottom

/-- The last path with a position that has an end. -/
def lastAt? (ends : List FeatureId → Option NodeId) (paths : List (List FeatureId × Nat))
    (position : Nat) : Option (List FeatureId) :=
  (paths.reverse.find? fun p => p.2 == position && (ends p.1).isSome).map Prod.fst

/-- The path at whose end the type at a position of a vector is read. -/
def readPath? (q : QuickCheck) (g : Graph) (root : NodeId) (position : Nat) :
    Option (List FeatureId) :=
  lastAt? (endOf? g root) q.paths position

section LastAt

variable {ends : List FeatureId → Option NodeId} {paths : List (List FeatureId × Nat)}
  {position : Nat} {path : List FeatureId}

theorem lastAt?_append_singleton (p : List FeatureId × Nat) :
    lastAt? ends (paths ++ [p]) position =
      if p.2 = position ∧ (ends p.1).isSome then some p.1 else lastAt? ends paths position := by
  unfold lastAt?
  rw [List.reverse_append, List.reverse_singleton, List.singleton_append, List.find?_cons]
  by_cases h : p.2 = position ∧ (ends p.1).isSome
  · simp [h]
  · have hno : (p.2 == position && (ends p.1).isSome) = false := by
      rw [Bool.eq_false_iff]
      simpa using h
    rw [if_neg h, hno]

theorem mem_of_lastAt? (h : lastAt? ends paths position = some path) :
    (path, position) ∈ paths ∧ (ends path).isSome := by
  obtain ⟨⟨path', place⟩, hfind, rfl⟩ := Option.map_eq_some_iff.1 h
  have hmem := List.mem_of_find?_eq_some hfind
  have hp := List.find?_some hfind
  rw [List.mem_reverse] at hmem
  simp only [Bool.and_eq_true, beq_iff_eq] at hp
  exact ⟨hp.1 ▸ hmem, hp.2⟩

theorem lastAt?_eq_none_iff :
    lastAt? ends paths position = none ↔ ∀ path, (path, position) ∈ paths → ends path = none := by
  simp only [lastAt?, Option.map_eq_none_iff, List.find?_eq_none, List.mem_reverse, Prod.forall,
    Bool.and_eq_true, beq_iff_eq, not_and, Bool.not_eq_true, Option.isSome_eq_false_iff,
    Option.isNone_iff_eq_none]
  exact ⟨fun h path hpath => h path position hpath rfl,
    fun h path _ hpath heq => h path (heq ▸ hpath)⟩

/-- Where a path has an end, what is read is the path itself or one that comes after it. -/
theorem exists_lastAt?_of_pairwise {R : List FeatureId × Nat → List FeatureId × Nat → Prop}
    (hR : paths.Pairwise R) (hmem : (path, position) ∈ paths) (hend : (ends path).isSome) :
    ∃ path', lastAt? ends paths position = some path' ∧
      (path' = path ∨ R (path, position) (path', position)) := by
  induction paths using List.reverseRecOn with
  | nil => cases hmem
  | append_singleton paths p ih =>
    obtain ⟨hR, -, hlater⟩ := List.pairwise_append.1 hR
    rw [lastAt?_append_singleton]
    rcases List.mem_append.1 hmem with hmem | hmem
    · split
      · rename_i hp
        refine ⟨p.1, rfl, .inr ?_⟩
        rw [← hp.1]
        exact hlater _ (hp.1 ▸ hmem) p (List.mem_singleton_self p)
      · exact ih hR hmem
    · obtain rfl := List.mem_singleton.1 hmem
      exact ⟨path, if_pos ⟨rfl, hend⟩, .inl rfl⟩

@[simp] theorem size_fillWith (found : Array (Option NodeId)) (place : Nat) (n : Option NodeId) :
    (fillWith found place n).size = found.size := by
  cases n <;> simp [fillWith]

theorem getElem?_fillWith {found : Array (Option NodeId)} (h : position < found.size) (place : Nat)
    (n : Option NodeId) : (fillWith found place n)[position]? =
      if place = position ∧ n.isSome then some n else found[position]? := by
  cases n with
  | none => simp [fillWith]
  | some n =>
    simp only [fillWith, Array.getElem?_setIfInBounds, Option.isSome_some, and_true]
    split
    · rename_i heq
      rw [if_pos (heq ▸ h)]
    · rfl

/-- Of what is filled in for a position the last stays. -/
theorem getElem?_foldl_fillWith {found : Array (Option NodeId)} (h : found[position]? = some none) :
    (paths.foldl (fun found (path, position) => fillWith found position (ends path))
      found)[position]? = some ((lastAt? ends paths position).bind ends) := by
  induction paths using List.reverseRecOn with
  | nil => exact h
  | append_singleton paths p ih =>
    have hlt := (Array.getElem?_eq_some_iff.1 ih).1
    rw [List.foldl_append, List.foldl_cons, List.foldl_nil, lastAt?_append_singleton,
      getElem?_fillWith hlt, ih]
    split <;> rfl

end LastAt

/-! ## What vectors tell -/

/-- A position of a vector has the type at the end of the path that it is read at. -/
theorem getElem?_vector {q : QuickCheck} (g : Graph) (root : NodeId) {position : Nat}
    (h : position < q.size) : (q.vector g root)[position]? =
      some (((q.readPath? g root position).map (typeAt g root)).getD .bottom) := by
  have hstart : (Array.replicate q.size (none : Option NodeId))[position]? = some none := by
    rw [Array.getElem?_replicate, if_pos h]
  rw [vector, List.getElem?_map, nodes_eq, Array.getElem?_toList, getElem?_foldl_fillWith hstart]
  cases hread : lastAt? (endOf? g root) q.paths position with
  | none => simp [readPath?, hread]
  | some path => simp [readPath?, hread, typeAt]

@[simp] theorem length_vector (q : QuickCheck) (g : Graph) (root : NodeId) :
    (q.vector g root).length = q.size := by
  have hsize : ∀ (paths : List (List FeatureId × Nat)) (found : Array (Option NodeId)),
      (paths.foldl (fun found (path, position) => fillWith found position (endOf? g root path))
        found).size = found.size := by
    intro paths
    induction paths with
    | nil => exact fun _ => rfl
    | cons p rest ih =>
      intro found
      rw [List.foldl_cons, ih, size_fillWith]
  rw [vector, List.length_map, nodes_eq, Array.length_toList, hsize, Array.size_replicate]

/-- What has a type there is read at a path with the position. -/
theorem readPath?_of_ne_bottom {q : QuickCheck} {g : Graph} {root : NodeId} {position : Nat}
    {t : TypeId} (h : (q.vector g root)[position]? = some t) (ht : t ≠ .bottom) :
    ∃ path, q.readPath? g root position = some path ∧ (path, position) ∈ q.paths ∧
      typeAt g root path = t := by
  have hlt : position < q.size := by
    rw [← q.length_vector g root]
    exact (List.getElem?_eq_some_iff.1 h).1
  rw [getElem?_vector g root hlt, Option.some.injEq] at h
  cases hread : q.readPath? g root position with
  | none =>
    rw [hread] at h
    exact absurd h.symm ht
  | some path =>
    rw [hread] at h
    exact ⟨path, rfl, (mem_of_lastAt? hread).1, h⟩

/-- A position that one path alone has is read at that path. -/
theorem getElem?_vector_of_unique {q : QuickCheck} (g : Graph) (root : NodeId) {position : Nat}
    {path : List FeatureId} (hlt : position < q.size) (hmem : (path, position) ∈ q.paths)
    (hunique : ∀ path', (path', position) ∈ q.paths → path' = path) :
    (q.vector g root)[position]? = some (typeAt g root path) := by
  rw [getElem?_vector g root hlt]
  cases hread : q.readPath? g root position with
  | none => simp [typeAt, lastAt?_eq_none_iff.1 hread path hmem]
  | some path' => simp [hunique path' (mem_of_lastAt? hread).1]

/-- A type in a vector is that of a node at the end of a path with its position. -/
theorem exists_path_of_vector {q : QuickCheck} {g : Graph} {root : NodeId} {position : Nat}
    {t : TypeId} (h : (q.vector g root)[position]? = some t) (ht : t ≠ .bottom) :
    ∃ path n, (path, position) ∈ q.paths ∧ endOf? g root path = some n ∧ g.currentType n = t := by
  obtain ⟨path, hread, hmem, rfl⟩ := readPath?_of_ne_bottom h ht
  obtain ⟨n, hn⟩ := Option.isSome_iff_exists.1 (mem_of_lastAt? hread).2
  exact ⟨path, n, hmem, hn, by simp [typeAt, hn]⟩

/-- A vector tells of the types at the ends of paths only. -/
theorem vector_congr {q : QuickCheck} {g g' : Graph} {root root' : NodeId}
    (h : ∀ path, (endOf? g root path).map g.currentType =
      (endOf? g' root' path).map g'.currentType) : q.vector g root = q.vector g' root' := by
  have hend : ∀ path, (endOf? g root path).isSome = (endOf? g' root' path).isSome := by
    intro path
    have hsome := congrArg Option.isSome (h path)
    rwa [Option.isSome_map, Option.isSome_map] at hsome
  have hread : ∀ position, q.readPath? g root position = q.readPath? g' root' position := by
    intro position
    simp only [readPath?, lastAt?, hend]
  have htype : typeAt g root = typeAt g' root' :=
    funext fun path => congrArg (·.getD .bottom) (h path)
  refine List.ext_getElem? fun position => ?_
  by_cases hlt : position < q.size
  · rw [getElem?_vector g root hlt, getElem?_vector g' root' hlt, hread, htype]
  · have hle : q.size ≤ position := Nat.le_of_not_lt hlt
    rw [List.getElem?_eq_none (by simpa using hle), List.getElem?_eq_none (by simpa using hle)]

/-- Vectors are not compatible because of a position at which both have types. -/
theorem exists_of_compatible_eq_false {l : Lattice} (hl : l.Sound) {v w : List TypeId}
    (h : (compatible v w l).1 = false) : ∃ (position : Nat) (t u : TypeId),
      v[position]? = some t ∧ w[position]? = some u ∧ t ≠ .bottom ∧ u ≠ .bottom ∧
        l.glb t u = .bottom := by
  induction v generalizing w l with
  | nil => cases h
  | cons t first ih =>
    cases w with
    | nil => cases h
    | cons u second =>
      -- a clash further on is one at the next position
      have hnext : ∀ {l' : Lattice}, l'.Sound → l'.hierarchy = l.hierarchy →
          (compatible first second l').1 = false → ∃ (position : Nat) (t' u' : TypeId),
            (t :: first)[position]? = some t' ∧ (u :: second)[position]? = some u' ∧
              t' ≠ .bottom ∧ u' ≠ .bottom ∧ l.glb t' u' = .bottom := by
        intro l' hl' heq h
        obtain ⟨position, t', u', ht, hu, hne, hne', hglb⟩ := ih hl' h
        exact ⟨position + 1, t', u', ht, hu, hne, hne', Lattice.glb_congr heq t' u' ▸ hglb⟩
      rw [compatible] at h
      split at h
      · exact hnext hl rfl h
      · rename_i hne
        simp only [Bool.or_eq_true, not_or, TypeId.isBottom_eq_true_iff] at hne
        simp only at h
        split at h
        · rename_i hbottom
          rw [TypeId.isBottom_eq_true_iff, hl.unify_eq_glb] at hbottom
          exact ⟨0, t, u, rfl, rfl, hne.1, hne.2, hbottom⟩
        · exact hnext (hl.unify t u) (l.hierarchy_unify t u) h

/-- What is learned from a comparison is true. -/
theorem sound_compatible (v w : List TypeId) {l : Lattice} (hl : l.Sound) :
    (compatible v w l).2.Sound ∧ (compatible v w l).2.hierarchy = l.hierarchy := by
  induction v generalizing w l with
  | nil => exact ⟨hl, rfl⟩
  | cons t first ih =>
    cases w with
    | nil => exact ⟨hl, rfl⟩
    | cons u second =>
      have hunify := hl.unify t u
      have hsame := l.hierarchy_unify t u
      rw [compatible]
      split
      · exact ih second hl
      · simp only
        split
        · exact ⟨hunify, hsame⟩
        · exact ⟨(ih second hunify).1, (ih second hunify).2.trans hsame⟩

end QuickCheck

end FeatureLogic
