import FeatureLogic.Graph.Slots
import FeatureLogic.Proofs.Shape

/-!
Committed structure. In a sound graph edge lists are in order and lead to nodes; when no episode is
open (`Graph.AtRest`), no note counts and every node stands for itself.
-/

open Relation

namespace FeatureLogic

/-! ## Edge lists -/

namespace Edges

/-- In a list in order the target of a feature is that of its one edge. -/
theorem target?_eq_some_iff {edges : List Edge} (h : Sorted edges) {f : FeatureId} {m : NodeId} :
    target? f edges = some m ↔ ⟨f, m⟩ ∈ edges := by
  induction edges with
  | nil => simp
  | cons e rest ih =>
    obtain ⟨he, hrest⟩ := List.pairwise_cons.1 h
    rw [target?_cons, List.mem_cons]
    by_cases hf : e.feature = f
    · rw [if_pos hf]
      constructor
      · intro heq
        rw [← Option.some.inj heq, ← hf]
        exact .inl rfl
      · rintro (heq | hmem)
        · rw [← heq]
        · have := he _ hmem
          exact absurd hf (Nat.ne_of_lt this)
    · rw [if_neg hf, ih hrest]
      constructor
      · exact .inr
      · rintro (heq | hmem)
        · exact absurd (by rw [← heq]) hf
        · exact hmem

theorem target?_eq_none_iff {edges : List Edge} {f : FeatureId} :
    target? f edges = none ↔ ∀ e ∈ edges, e.feature ≠ f := by
  simp [target?]

theorem mem_of_target? {edges : List Edge} {f : FeatureId} {m : NodeId}
    (h : target? f edges = some m) : ⟨f, m⟩ ∈ edges := by
  obtain ⟨e, he, rfl⟩ := Option.map_eq_some_iff.1 h
  have hf : e.feature = f := by simpa using List.find?_some he
  exact hf ▸ List.mem_of_find?_eq_some he

theorem Sorted.nodup {edges : List Edge} (h : Sorted edges) : edges.Nodup :=
  List.Pairwise.imp (fun hlt => ne_of_apply_ne Edge.feature (Nat.ne_of_lt hlt)) h

/-- The values of the features tell a list in order. -/
theorem eq_of_target?_eq {edges edges' : List Edge} (h : Sorted edges) (h' : Sorted edges')
    (heq : ∀ f, target? f edges = target? f edges') : edges = edges' := by
  have hperm : edges.Perm edges' := by
    refine (List.perm_ext_iff_of_nodup h.nodup h'.nodup).2 fun ⟨f, m⟩ => ?_
    rw [← target?_eq_some_iff h, heq, target?_eq_some_iff h']
  exact hperm.eq_of_pairwise (fun _ _ _ _ hde hed => absurd hed (Nat.lt_asymm hde)) h h'

theorem target?_append (first second : List Edge) (f : FeatureId) :
    target? f (first ++ second) = (target? f first).or (target? f second) := by
  rw [target?, List.find?_append, Option.map_or]
  rfl

theorem target?_mapTargets (k : NodeId → NodeId) (edges : List Edge) (f : FeatureId) :
    target? f (mapTargets k edges) = (target? f edges).map k := by
  induction edges with
  | nil => rfl
  | cons e rest ih =>
    have hcons : mapTargets k (e :: rest) = ⟨e.feature, k e.target⟩ :: mapTargets k rest := rfl
    rw [hcons, target?_cons, target?_cons, ih]
    split <;> rfl

theorem sorted_mapTargets {edges : List Edge} (h : Sorted edges) (k : NodeId → NodeId) :
    Sorted (mapTargets k edges) :=
  List.pairwise_map.2 h

theorem mem_mapTargets {k : NodeId → NodeId} {edges : List Edge} {e : Edge} :
    e ∈ mapTargets k edges ↔ ∃ d ∈ edges, d.feature = e.feature ∧ k d.target = e.target := by
  simp only [mapTargets, List.mem_map]
  refine exists_congr fun d => and_congr_right fun _ => ?_
  cases e
  simp

theorem mapTargets_congr {k k' : NodeId → NodeId} {edges : List Edge}
    (h : ∀ e ∈ edges, k e.target = k' e.target) : mapTargets k edges = mapTargets k' edges :=
  List.map_congr_left fun e he => by rw [h e he]

theorem mapTargets_mapTargets (k k' : NodeId → NodeId) (edges : List Edge) :
    mapTargets k' (mapTargets k edges) = mapTargets (k' ∘ k) edges := by
  simp [mapTargets]

theorem mapTargets_id {k : NodeId → NodeId} {edges : List Edge}
    (h : ∀ e ∈ edges, k e.target = e.target) : mapTargets k edges = edges := by
  have hid : mapTargets k edges = mapTargets id edges := mapTargets_congr h
  exact hid.trans (List.map_id edges)

end Edges

namespace Graph

/-! ## Nodes after an operation -/

theorem node_of_le {g : Graph} {n : Nat} (h : g.size ≤ n) : g.node n = default := by
  rw [node, Array.getD_eq_getD_getElem?, Array.getElem?_eq_none h]
  rfl

theorem type_of_le {g : Graph} {n : Nat} (h : g.size ≤ n) : g.type n = .top := by
  rw [type, node_of_le h]
  rfl

theorem edges_of_le {g : Graph} {n : Nat} (h : g.size ≤ n) : g.edges n = [] := by
  rw [edges, node_of_le h]
  rfl

theorem node_add (g : Graph) (type : TypeId) (edges : List Edge) (m : Nat) :
    (g.add type edges).node m = if m = g.size then .fresh type edges else g.node m := by
  simp only [node, add, size, Array.getD_eq_getD_getElem?, Array.getElem?_push]
  split <;> simp

theorem node_note (g : Graph) (n m : Nat) (f : Slots → Slots) :
    (g.note n f).node m = if n = m ∧ n < g.size then
      { g.node m with slots := f ((g.node m).slotsIn g.generation) } else g.node m :=
  node_modify g n m _

theorem node_setEdges (g : Graph) (n m : Nat) (edges : List Edge) :
    (g.setEdges n edges).node m =
      if n = m ∧ n < g.size then { g.node m with edges } else g.node m :=
  node_modify g n m _

/-! What an edit leaves of the types and edges. -/

@[simp] theorem edges_setType (g : Graph) (n m : NodeId) (type : TypeId) :
    (g.setType n type).edges m = g.edges m := by
  rw [edges, setType, node_modify]
  split <;> rfl

theorem type_setType (g : Graph) (n m : NodeId) (type : TypeId) :
    (g.setType n type).type m = if n = m ∧ n < g.size then type else g.type m := by
  rw [Graph.type, setType, node_modify]
  split <;> rfl

theorem edges_setEdges (g : Graph) (n m : Nat) (edges : List Edge) :
    (g.setEdges n edges).edges m = if n = m ∧ n < g.size then edges else g.edges m := by
  rw [Graph.edges, node_setEdges]
  split <;> rfl

@[simp] theorem type_setEdges (g : Graph) (n m : Nat) (edges : List Edge) :
    (g.setEdges n edges).type m = g.type m := by
  rw [type, node_setEdges]
  split <;> rfl

theorem edges_putEdge (g : Graph) (n m : Nat) (feature : FeatureId) (target : NodeId) :
    (g.putEdge n feature target).edges m =
      if n = m ∧ n < g.size then Edges.put feature target (g.edges m) else g.edges m := by
  rw [edges, putEdge, node_modify]
  split <;> rfl

theorem node_truncate (g : Graph) (size : Nat) (m : Nat) :
    (g.truncate size).node m = if m < size then g.node m else default := by
  simp only [node, truncate, Array.getD_eq_getD_getElem?, Array.take_eq_extract,
    Array.getElem?_extract, Nat.sub_zero, Nat.zero_add]
  by_cases hm : m < size
  · by_cases hg : m < g.nodes.size
    · rw [if_pos (show m < min size g.nodes.size by omega), if_pos hm]
    · rw [if_neg (show ¬ m < min size g.nodes.size by omega), if_pos hm,
        Array.getElem?_eq_none (show g.nodes.size ≤ m by omega)]
  · rw [if_neg (show ¬ m < min size g.nodes.size by omega), if_neg hm]
    rfl

theorem node_compact (g : Graph) {first start : Nat} (hfirst : first < start)
    (hstart : start ≤ g.size) (m : Nat) : (g.compact first start).node m =
      if m < first then g.node m else { g.node (m + (start - first)) with
        edges := Edges.mapTargets (shifted first start) (g.edges (m + (start - first))) } := by
  have hs : g.nodes.size = g.size := rfl
  rw [compact, if_neg (by omega)]
  simp only [node, edges, Array.getD_eq_getD_getElem?]
  rw [Array.take_eq_extract, Array.getElem?_append, Array.size_extract, Nat.min_eq_left (by omega),
    Nat.sub_zero]
  by_cases hm : m < first
  · rw [if_pos hm, if_pos hm, Array.getElem?_extract, if_pos (by omega), Nat.zero_add]
  · simp only [hm, if_false, Array.getElem?_map, Array.getElem?_extract]
    have hsum : start + (m - first) = m + (start - first) := by omega
    by_cases hlt : m + (start - first) < g.size
    · rw [if_pos (by omega), hsum]
      cases g.nodes[m + (start - first)]? <;> rfl
    · rw [if_neg (by omega), Array.getElem?_eq_none (by omega)]
      rfl

@[simp] theorem size_compact (g : Graph) {first start : Nat} (hfirst : first ≤ start)
    (hstart : start ≤ g.size) : (g.compact first start).size = g.size - (start - first) := by
  have hs : g.nodes.size = g.size := rfl
  unfold compact
  split
  · omega
  · simp only [size, Array.size_append, Array.take_eq_extract, Array.size_map, Array.size_extract]
    omega

/-! ## Shapes and soundness -/

/-- The committed structure. -/
def shape (g : Graph) : Shape := ⟨g.type, g.value?⟩

/-- What holds of the committed part of a graph, and of its stamps. -/
structure Sound (g : Graph) : Prop where
  generation_pos : 0 < g.generation
  stamp_le : ∀ n : Nat, (g.node n).slots.stamp ≤ g.generation
  sorted : ∀ n, Edges.Sorted (g.edges n)
  target_lt : ∀ {n : Nat} {e : Edge}, e ∈ g.edges n → e.target < g.size

/-- No note is of an episode to come. -/
structure Stamped (g : Graph) : Prop where
  generation_pos : 0 < g.generation
  stamp_le : ∀ n : Nat, (g.node n).slots.stamp ≤ g.generation

/-- No episode is open: no note counts. -/
def AtRest (g : Graph) : Prop := ∀ n : Nat, (g.node n).slots.stamp ≠ g.generation

/-- Every edge leads to a node. -/
def EdgesLead (g : Graph) : Prop := ∀ ⦃n : Nat⦄ ⦃e : Edge⦄, e ∈ g.edges n → e.target < g.size

theorem Sound.stamped {g : Graph} (hg : g.Sound) : g.Stamped := ⟨hg.generation_pos, hg.stamp_le⟩

theorem Sound.edgesLead {g : Graph} (hg : g.Sound) : g.EdgesLead := fun _ _ he => hg.target_lt he

/-! ### Stamps -/

/-- No stamp is ahead of the number of the episode. -/
def InTime (g : Graph) : Prop := ∀ n : Nat, (g.node n).slots.stamp ≤ g.generation

section InTime

variable {g : Graph} (h : g.InTime)
include h

theorem InTime.modify (n : NodeId) {f : Node → Node}
    (hf : ∀ node, node.slots.stamp ≤ g.generation → (f node).slots.stamp ≤ g.generation) :
    ({ g with nodes := g.nodes.modify n f } : Graph).InTime := by
  intro m
  rw [node_modify]
  split
  · exact hf _ (h m)
  · exact h m

theorem InTime.note (n : NodeId) {f : Slots → Slots} (hf : ∀ s, (f s).stamp = s.stamp) :
    (g.note n f).InTime :=
  h.modify n fun _ _ => Nat.le_of_eq ((hf _).trans (Node.stamp_slotsIn _ _))

theorem InTime.add (type : TypeId) (edges : List Edge) : (g.add type edges).InTime := by
  intro m
  rw [node_add]
  split
  · exact Nat.zero_le _
  · exact h m

theorem InTime.truncate (size : Nat) : (g.truncate size).InTime := by
  intro m
  rw [node_truncate]
  split
  · exact h m
  · exact Nat.zero_le _

/-- The next episode begins without notes. -/
theorem InTime.invalidate : g.invalidate.Stamped ∧ g.invalidate.AtRest := by
  have hstamps : 0 < g.invalidate.generation ∧
      ∀ n, (g.invalidate.node n).slots.stamp < g.invalidate.generation := by
    unfold Graph.invalidate
    split
    · refine ⟨Nat.one_pos, fun n => ?_⟩
      simp only [node, Array.getD_eq_getD_getElem?, Array.getElem?_map]
      cases g.nodes[n]? <;> exact Nat.one_pos
    · exact ⟨Nat.succ_pos _, fun n => Nat.lt_succ_of_le (h n)⟩
  exact ⟨⟨hstamps.1, fun n => Nat.le_of_lt (hstamps.2 n)⟩, fun n => Nat.ne_of_lt (hstamps.2 n)⟩

end InTime

theorem Stamped.inTime {g : Graph} (hg : g.Stamped) : g.InTime := hg.stamp_le

theorem Stamped.invalidate {g : Graph} (hg : g.Stamped) :
    g.invalidate.Stamped ∧ g.invalidate.AtRest :=
  hg.inTime.invalidate

theorem sound_empty : empty.Sound where
  generation_pos := Nat.one_pos
  stamp_le n := by
    rw [node_of_le (Nat.zero_le n)]
    exact Nat.zero_le _
  sorted n := by
    rw [edges, node_of_le (Nat.zero_le n)]
    exact Edges.sorted_nil
  target_lt {n e} he := by
    rw [edges, node_of_le (Nat.zero_le n)] at he
    cases he

section Sound

variable {g : Graph} (hg : g.Sound)
include hg

theorem Sound.value_eq_some_iff {n m : Nat} {f : FeatureId} :
    g.value? n f = some m ↔ ⟨f, m⟩ ∈ g.edges n :=
  Edges.target?_eq_some_iff (hg.sorted n)

theorem Sound.value_lt {n m : Nat} {f : FeatureId} (h : g.value? n f = some m) :
    m < g.size :=
  hg.target_lt (hg.value_eq_some_iff.1 h)

theorem Sound.reach_lt {x n : Nat} (hx : x < g.size) (hn : g.shape.Reach x n) :
    n < g.size := by
  induction hn with
  | refl => exact hx
  | tail _ hs _ =>
    obtain ⟨f, hf⟩ := hs
    exact hg.value_lt hf

theorem Sound.add {type : TypeId} {edges : List Edge} (hs : Edges.Sorted edges)
    (ht : ∀ e ∈ edges, e.target < g.size + 1) : (g.add type edges).Sound where
  generation_pos := hg.generation_pos
  stamp_le := hg.stamped.inTime.add type edges
  sorted n := by
    rw [edges_add]
    split
    · exact hs
    · exact hg.sorted n
  target_lt {n e} he := by
    rw [size_add]
    rw [edges_add] at he
    split at he
    · exact ht e he
    · exact Nat.lt_succ_of_lt (hg.target_lt he)

theorem Sound.putEdge {target : Nat} (n : NodeId) (feature : FeatureId) (ht : target < g.size) :
    (g.putEdge n feature target).Sound where
  generation_pos := hg.generation_pos
  stamp_le := hg.stamped.inTime.modify n fun _ hstamp => hstamp
  sorted m := by
    rw [edges_putEdge]
    split
    · exact Edges.sorted_put (hg.sorted m) feature target
    · exact hg.sorted m
  target_lt {m e} he := by
    rw [size_putEdge]
    rw [edges_putEdge] at he
    split at he
    · rcases Edges.mem_put he with rfl | he
      · exact ht
      · exact hg.target_lt he
    · exact hg.target_lt he

theorem Sound.note {n : Nat} {f : Slots → Slots} (hf : ∀ s, (f s).stamp = s.stamp) :
    (g.note n f).Sound where
  generation_pos := hg.generation_pos
  stamp_le := hg.stamped.inTime.note n hf
  sorted m := by
    rw [edges_note]
    exact hg.sorted m
  target_lt {m e} he := by
    rw [edges_note] at he
    rw [size_note]
    exact hg.target_lt he

theorem Sound.invalidate : g.invalidate.Sound ∧ g.invalidate.AtRest := by
  obtain ⟨hstamped, hrest⟩ := hg.stamped.invalidate
  refine ⟨⟨hstamped.generation_pos, hstamped.stamp_le, fun n => ?_, fun he => ?_⟩, hrest⟩
  · rw [edges_invalidate]
    exact hg.sorted n
  · rw [edges_invalidate] at he
    rw [size_invalidate]
    exact hg.target_lt he

end Sound

/-! ## At rest -/

theorem AtRest.slots_eq {g : Graph} (h : g.AtRest) (n : Nat) :
    g.slots n = .unset g.generation (g.type n) :=
  if_neg (h n)

section AtRest

variable {g : Graph} (h : g.AtRest) (n : Nat)
include h

theorem AtRest.forward_eq : g.forward? n = none := by rw [forward?, h.slots_eq]; rfl

theorem AtRest.currentType_eq : g.currentType n = g.type n := by rw [currentType, h.slots_eq]; rfl

theorem AtRest.pending_eq : g.pending n = [] := by rw [pending, h.slots_eq]; rfl

theorem AtRest.copyMark_eq : g.copyMark n = .blank := by rw [copyMark, h.slots_eq]; rfl

theorem AtRest.deref_eq : g.deref n = n := deref_of_forward_none (h.forward_eq n)

theorem AtRest.currentEdge_eq (f : FeatureId) : g.currentEdge? n f = g.value? n f := by
  rw [currentEdge?, h.pending_eq, Edges.target?_nil]
  cases g.value? n f <;> rfl

omit n in
theorem AtRest.currentValue?_eq : g.currentValue? = g.value? := by
  funext n f
  rw [currentValue?, h.deref_eq, h.currentEdge_eq]
  cases g.value? n f with
  | none => rfl
  | some m => exact congrArg some (h.deref_eq m)

end AtRest

/-! ## Growing -/

/-- The second graph has the nodes of the first, with their committed structure. -/
structure Extends (g g' : Graph) : Prop where
  size_le : g.size ≤ g'.size
  type_eq : ∀ {n : Nat}, n < g.size → g'.type n = g.type n
  edges_eq : ∀ {n : Nat}, n < g.size → g'.edges n = g.edges n

theorem Extends.refl (g : Graph) : g.Extends g := ⟨Nat.le_refl _, fun _ => rfl, fun _ => rfl⟩

theorem Extends.trans {g₁ g₂ g₃ : Graph} (h : g₁.Extends g₂) (h' : g₂.Extends g₃) :
    g₁.Extends g₃ where
  size_le := Nat.le_trans h.size_le h'.size_le
  type_eq hn := (h'.type_eq (Nat.lt_of_lt_of_le hn h.size_le)).trans (h.type_eq hn)
  edges_eq hn := (h'.edges_eq (Nat.lt_of_lt_of_le hn h.size_le)).trans (h.edges_eq hn)

theorem Extends.value_eq {g g' : Graph} (h : g.Extends g') {n : Nat} (hn : n < g.size)
    (f : FeatureId) : g'.value? n f = g.value? n f := by
  rw [value?, value?, h.edges_eq hn]

/-- What was there before is the same structure afterwards. -/
theorem Extends.isomorphic {g g' : Graph} (h : g.Extends g') (hg : g.Sound) {x : Nat}
    (hx : x < g.size) : g.shape.Isomorphic x g'.shape x := by
  refine ⟨id, rfl, fun _ _ _ _ heq => heq, fun n hn => ⟨h.type_eq (hg.reach_lt hx hn), fun f => ?_⟩⟩
  rw [Option.map_id]
  exact h.value_eq (hg.reach_lt hx hn) f

section Edges

variable {g g' : Graph} (h : g.Extends g')
include h

/-- Edges lead to nodes if those of the nodes that were added do. -/
theorem Extends.edgesLead (hg : g.EdgesLead) (hnew : ∀ {n : Nat} {e : Edge},
    g.size ≤ n → n < g'.size → e ∈ g'.edges n → e.target < g'.size) : g'.EdgesLead := by
  intro n e he
  rcases Nat.lt_or_ge n g.size with hn | hn
  · rw [h.edges_eq hn] at he
    exact Nat.lt_of_lt_of_le (hg he) h.size_le
  · refine hnew hn (Nat.lt_of_not_le fun hle => ?_) he
    rw [edges, node_of_le hle] at he
    cases he

variable (hsize : g'.size = g.size)
include hsize

/-- Where nothing is added, edges lead to nodes as before. -/
theorem Extends.edgesLead_of_size_eq (hg : g.EdgesLead) : g'.EdgesLead :=
  h.edgesLead hg fun hle hlt => absurd (hsize ▸ hlt) (Nat.not_lt.2 hle)

theorem Extends.sound_of_size_eq (hst : g'.Stamped) (hg : g.Sound) : g'.Sound := by
  refine ⟨hst.generation_pos, hst.stamp_le, fun n => ?_,
    @(h.edgesLead_of_size_eq hsize hg.edgesLead)⟩
  rcases Nat.lt_or_ge n g.size with hn | hn
  · rw [h.edges_eq hn]
    exact hg.sorted n
  · rw [edges, node_of_le (hsize ▸ hn)]
    exact Edges.sorted_nil

end Edges

theorem extends_of_node_eq {g g' : Graph} (hsize : g.size ≤ g'.size)
    (hnode : ∀ n < g.size, g'.node n = g.node n) : g.Extends g' where
  size_le := hsize
  type_eq hn := congrArg Node.type (hnode _ hn)
  edges_eq hn := congrArg Node.edges (hnode _ hn)

theorem extends_invalidate (g : Graph) : g.Extends g.invalidate :=
  ⟨Nat.le_of_eq (size_invalidate g).symm, fun _ => type_invalidate .., fun _ => edges_invalidate ..⟩

theorem EdgesLead.invalidate {g : Graph} (hg : g.EdgesLead) : g.invalidate.EdgesLead := by
  intro n e he
  rw [edges_invalidate] at he
  rw [size_invalidate]
  exact hg he

theorem shape_invalidate (g : Graph) : g.invalidate.shape = g.shape := by
  unfold shape
  congr 1
  · funext n
    exact type_invalidate ..
  · funext n f
    rw [value?, edges_invalidate, value?]

theorem follow?_invalidate (g : Graph) (n : NodeId) (path : List FeatureId) :
    g.invalidate.follow? n path = g.follow? n path := by
  have hvalue : g.invalidate.value? = g.value? := congrArg Shape.value? g.shape_invalidate
  rw [follow?, hvalue, follow?]

theorem extends_add (g : Graph) (type : TypeId) (edges : List Edge) :
    g.Extends (g.add type edges) := by
  refine extends_of_node_eq ?_ fun n hn => ?_
  · rw [size_add]
    exact Nat.le_succ _
  · rw [node_add, if_neg (Nat.ne_of_lt hn)]

/-- An edge of a later node changes nothing of what was there. -/
theorem Extends.putEdge {g g' : Graph} (h : g.Extends g') {n : Nat} (hn : g.size ≤ n)
    (feature : FeatureId) (target : NodeId) : g.Extends (g'.putEdge n feature target) where
  size_le := by
    rw [size_putEdge]
    exact h.size_le
  type_eq hm := (type_putEdge ..).trans (h.type_eq hm)
  edges_eq {m} hm := by
    rw [edges, Graph.putEdge, node_modify, if_neg fun hc => ?_]
    · exact h.edges_eq hm
    · exact Nat.not_le.2 hm (hc.1 ▸ hn)

/-! ## Untouched nodes -/

/-- A graph of nodes that no episode has touched. -/
def ofNodes (nodes : List (TypeId × List Edge)) : Graph :=
  ⟨(nodes.map fun (type, edges) => Node.fresh type edges).toArray, 1⟩

theorem size_ofNodes (nodes : List (TypeId × List Edge)) : (ofNodes nodes).size = nodes.length := by
  simp [size, ofNodes]

theorem node_ofNodes (nodes : List (TypeId × List Edge)) (n : Nat) :
    ∃ type edges, (ofNodes nodes).node n = .fresh type edges ∧
      ((type, edges) ∈ nodes ∨ (type = .top ∧ edges = [])) := by
  simp only [node, ofNodes, Array.getD_eq_getD_getElem?, List.getElem?_toArray, List.getElem?_map]
  cases hn : nodes[n]? with
  | none => exact ⟨_, _, rfl, .inr ⟨rfl, rfl⟩⟩
  | some p => exact ⟨_, _, rfl, .inl (List.mem_of_getElem? hn)⟩

theorem sound_ofNodes {nodes : List (TypeId × List Edge)}
    (h : ∀ p ∈ nodes, p.2.Pairwise (fun d e => d.feature < e.feature) ∧
      ∀ e ∈ p.2, e.target < nodes.length) : (ofNodes nodes).Sound ∧ (ofNodes nodes).AtRest := by
  refine ⟨⟨Nat.one_pos, fun n => ?_, fun n => ?_, fun {n e} he => ?_⟩, fun n => ?_⟩
  · obtain ⟨type, edges, hn, -⟩ := node_ofNodes nodes n
    rw [hn]
    exact Nat.zero_le _
  · obtain ⟨type, edges, hn, hmem⟩ := node_ofNodes nodes n
    rw [Graph.edges, hn]
    rcases hmem with hmem | ⟨-, rfl⟩
    · exact (h _ hmem).1
    · exact Edges.sorted_nil
  · obtain ⟨type, edges, hn, hmem⟩ := node_ofNodes nodes n
    rw [Graph.edges, hn] at he
    rw [size_ofNodes]
    rcases hmem with hmem | ⟨-, rfl⟩
    · exact (h _ hmem).2 e he
    · cases he
  · obtain ⟨type, edges, hn, -⟩ := node_ofNodes nodes n
    rw [hn]
    exact Nat.zero_ne_one

/-! ## What is below a node -/

/-- A path of committed edges leads from the root to the node. -/
def Below (g : Graph) (root n : NodeId) : Prop :=
  ReflTransGen (fun n m => ∃ e ∈ g.edges n, e.target = m) root n

theorem Below.edge {g : Graph} {root n : NodeId} (h : g.Below root n) {e : Edge}
    (he : e ∈ g.edges n) : g.Below root e.target :=
  h.tail ⟨e, he, rfl⟩

theorem Below.lt {g : Graph} (hg : g.EdgesLead) {root n : Nat} (hroot : root < g.size)
    (h : g.Below root n) : n < g.size := by
  induction h with
  | refl => exact hroot
  | tail _ hstep _ =>
    obtain ⟨e, he, rfl⟩ := hstep
    exact hg he

/-- No path from the root leads out of the graph. -/
def Whole (g : Graph) (root : NodeId) : Prop := ∀ ⦃n : Nat⦄, g.Below root n → n < g.size

theorem EdgesLead.whole {g : Graph} (hg : g.EdgesLead) {root : Nat} (hroot : root < g.size) :
    g.Whole root := fun _ h => h.lt hg hroot

theorem below_of_reach {g : Graph} {x n : NodeId} (h : g.shape.Reach x n) : g.Below x n := by
  induction h with
  | refl => exact ReflTransGen.refl
  | tail _ hstep ih =>
    obtain ⟨f, hf⟩ := hstep
    exact ih.edge (Edges.mem_of_target? hf)

/-- Where edges are in order every one of them is the value of its feature. -/
theorem Sound.reach_of_below {g : Graph} (hg : g.Sound) {x n : NodeId} (h : g.Below x n) :
    g.shape.Reach x n := by
  induction h with
  | refl => exact ReflTransGen.refl
  | tail _ hstep ih =>
    obtain ⟨e, he, rfl⟩ := hstep
    exact ih.value (hg.value_eq_some_iff.2 he)

/-- Nothing is below a node but what a closed list has that has the node. -/
theorem mem_of_below {g : Graph} {below : List NodeId}
    (h : ∀ n ∈ below, ∀ e ∈ g.edges n, e.target ∈ below) {root n : NodeId} (hroot : root ∈ below)
    (hn : g.Below root n) : n ∈ below := by
  induction hn with
  | refl => exact hroot
  | tail _ hstep ih =>
    obtain ⟨e, he, rfl⟩ := hstep
    exact h _ ih e he

/-! ## Closed lists of nodes -/

section Closed

variable {g : Graph} (hg : g.Sound) {x : NodeId} (below : List NodeId) (hx : x ∈ below)
include hg hx

/-- A list with the root and whatever its nodes lead to has all nodes below the root. -/
theorem Sound.mem_of_reach (h : ∀ n ∈ below, ∀ e ∈ g.edges n, e.target ∈ below) {n : NodeId}
    (hn : g.shape.Reach x n) : n ∈ below := by
  induction hn with
  | refl => exact hx
  | tail _ hstep ih =>
    obtain ⟨f, hf⟩ := hstep
    exact h _ ih _ (hg.value_eq_some_iff.1 hf)

/-- Below two nodes there is no node in common if it is so with two such lists. -/
theorem Sound.apart_of_disjoint (h : ∀ n ∈ below, ∀ e ∈ g.edges n, e.target ∈ below) {y : NodeId}
    {below' : List NodeId} (hy : y ∈ below')
    (h' : ∀ n ∈ below', ∀ e ∈ g.edges n, e.target ∈ below') (hdisjoint : ∀ n ∈ below, n ∉ below')
    (n : NodeId) (hn : g.shape.Reach x n) : ¬ g.shape.Reach y n := fun hn' =>
  hdisjoint n (hg.mem_of_reach below hx h hn) (hg.mem_of_reach below' hy h' hn')

/-- There is no cycle below a node if edges lead to greater numbers only. -/
theorem Sound.acyclic_of_lt (h : ∀ n ∈ below, ∀ e ∈ g.edges n, e.target ∈ below ∧ n < e.target) :
    g.shape.Acyclic x := by
  refine Shape.acyclic_of_lt fun n m hn hstep => ?_
  obtain ⟨f, hf⟩ := hstep
  have hmem := hg.mem_of_reach below hx (fun n hn e he => (h n hn e he).1) hn
  exact (h n hmem _ (hg.value_eq_some_iff.1 hf)).2

/-- A map that is right at each node of such a list is one of the whole structure. -/
theorem Sound.subsumes_of_forall {l : Lattice} (hl : l.hierarchy.Sound) {g' : Graph}
    (μ : NodeId → NodeId) (h : ∀ n ∈ below, l.glb (g.type n) (g'.type (μ n)) = g'.type (μ n) ∧
      ∀ e ∈ g.edges n, e.target ∈ below ∧ g'.value? (μ n) e.feature = some (μ e.target)) :
    g.shape.Subsumes l.hierarchy x g'.shape (μ x) := by
  have hmem : ∀ {n}, g.shape.Reach x n → n ∈ below :=
    fun hn => hg.mem_of_reach below hx (fun n hn e he => ((h n hn).2 e he).1) hn
  refine ⟨μ, rfl, fun hn => ?_, fun hn hf => ?_⟩
  · exact (Lattice.glb_eq_right_iff hl).1 (h _ (hmem hn)).1
  · exact ((h _ (hmem hn)).2 _ (hg.value_eq_some_iff.1 hf)).2

end Closed

end Graph

end FeatureLogic
