import FeatureLogic.Proofs.Graph.Copying
import FeatureLogic.Proofs.Graph.Dropping

/-!
What holds of a graph at any time, also while an episode is open. Its notes are of this episode or
of an earlier one (`Graph.Stamped`), and all links, committed or not, lead to nodes
(`Graph.Linked`). Every operation keeps the first, and every operation that is given nodes of the
graph keeps the second.
-/

open Relation

namespace FeatureLogic

theorem Node.eq_fresh {node : Node} (h : node.slots = .unset 0 .top) :
    node = .fresh node.type node.edges := by
  rw [fresh, ← h]

namespace Graph

/-! ## Stamps -/

theorem stamped_empty : empty.Stamped := sound_empty.stamped

section Stamped

variable {g : Graph} (hg : g.Stamped)
include hg

/-- A change of nodes that leaves their notes to this episode. -/
theorem Stamped.of_nodes {g' : Graph} (hgeneration : g'.generation = g.generation)
    (h : ∀ n : Nat, (g'.node n).slots.stamp ≤ g.generation) : g'.Stamped :=
  ⟨hgeneration ▸ hg.generation_pos, hgeneration ▸ h⟩

theorem Stamped.modify (n : NodeId) {f : Node → Node}
    (hf : ∀ node, node.slots.stamp ≤ g.generation → (f node).slots.stamp ≤ g.generation) :
    ({ g with nodes := g.nodes.modify n f } : Graph).Stamped :=
  ⟨hg.generation_pos, hg.inTime.modify n hf⟩

theorem Stamped.note (n : NodeId) {f : Slots → Slots} (hf : ∀ s, (f s).stamp = s.stamp) :
    (g.note n f).Stamped :=
  ⟨hg.generation_pos, hg.inTime.note n hf⟩

theorem Stamped.setForward (n target : NodeId) : (g.setForward n target).Stamped :=
  hg.note n (by intro _; rfl)

theorem Stamped.setCurrentType (n : NodeId) (type : TypeId) : (g.setCurrentType n type).Stamped :=
  hg.note n (by intro _; rfl)

theorem Stamped.addPending (n : NodeId) (e : Edge) : (g.addPending n e).Stamped :=
  hg.note n (by intro _; rfl)

theorem Stamped.setCopyMark (n : NodeId) (mark : CopyMark) : (g.setCopyMark n mark).Stamped :=
  hg.note n (by intro _; rfl)

theorem Stamped.setType (n : NodeId) (type : TypeId) : (g.setType n type).Stamped :=
  hg.modify n fun _ h => h

theorem Stamped.setEdges (n : NodeId) (edges : List Edge) : (g.setEdges n edges).Stamped :=
  hg.modify n fun _ h => h

theorem Stamped.putEdge (n : NodeId) (feature : FeatureId) (target : NodeId) :
    (g.putEdge n feature target).Stamped :=
  hg.modify n fun _ h => h

theorem Stamped.dropEdge (n : NodeId) (feature : FeatureId) : (g.dropEdge n feature).Stamped :=
  hg.modify n fun _ h => h

theorem Stamped.add (type : TypeId) (edges : List Edge) : (g.add type edges).Stamped :=
  ⟨hg.generation_pos, hg.inTime.add type edges⟩

theorem Stamped.truncate (size : Nat) : (g.truncate size).Stamped :=
  ⟨hg.generation_pos, hg.inTime.truncate size⟩

theorem Stamped.compact (first start : Nat) : (g.compact first start).Stamped :=
  hg.of_nodes (generation_compact ..) fun n => by
    obtain ⟨k, hk⟩ := exists_slots_compact g first start n
    rw [hk]
    exact hg.stamp_le k

end Stamped

/-! ## Notes only -/

/-- The second graph is the first one with other notes. -/
structure Noted (g g' : Graph) : Prop where
  generation_eq : g'.generation = g.generation
  size_eq : g'.size = g.size
  type_eq : ∀ n, g'.type n = g.type n
  edges_eq : ∀ n, g'.edges n = g.edges n
  stamp : ∀ n : Nat, (g'.node n).slots.stamp = (g.node n).slots.stamp ∨
    (g'.node n).slots.stamp = g.generation

namespace Noted

theorem refl (g : Graph) : g.Noted g := ⟨rfl, rfl, fun _ => rfl, fun _ => rfl, fun _ => .inl rfl⟩

variable {g g' : Graph} (h : g.Noted g')
include h

theorem trans {g'' : Graph} (h' : g'.Noted g'') : g.Noted g'' where
  generation_eq := h'.generation_eq.trans h.generation_eq
  size_eq := h'.size_eq.trans h.size_eq
  type_eq n := (h'.type_eq n).trans (h.type_eq n)
  edges_eq n := (h'.edges_eq n).trans (h.edges_eq n)
  stamp n := by
    rcases h'.stamp n with hn | hn
    · exact hn ▸ h.stamp n
    · exact .inr (hn.trans h.generation_eq)

theorem note (n : NodeId) {f : Slots → Slots} (hf : ∀ s, (f s).stamp = s.stamp) :
    g.Noted (g'.note n f) where
  generation_eq := h.generation_eq
  size_eq := (size_note ..).trans h.size_eq
  type_eq m := (type_note ..).trans (h.type_eq m)
  edges_eq m := (edges_note ..).trans (h.edges_eq m)
  stamp m := by
    rw [node_note]
    split
    · exact .inr ((hf _).trans ((Node.stamp_slotsIn _ _).trans h.generation_eq))
    · exact h.stamp m

theorem setForward (n target : NodeId) : g.Noted (g'.setForward n target) :=
  h.note n (by intro _; rfl)

theorem setCopyMark (n : NodeId) (mark : CopyMark) : g.Noted (g'.setCopyMark n mark) :=
  h.note n (by intro _; rfl)

theorem setVisits (n : NodeId) (visits : Nat) : g.Noted (g'.setVisits n visits) :=
  h.note n (by intro _; rfl)

theorem edgesLead (hg : g.EdgesLead) : g'.EdgesLead := by
  intro n e he
  rw [h.edges_eq] at he
  rw [h.size_eq]
  exact hg he

theorem stamped (hg : g.Stamped) : g'.Stamped := by
  refine hg.of_nodes h.generation_eq fun n => ?_
  rcases h.stamp n with heq | heq <;> rw [heq]
  exact hg.stamp_le n

theorem sound (hg : g.Sound) : g'.Sound where
  generation_pos := (h.stamped hg.stamped).generation_pos
  stamp_le := (h.stamped hg.stamped).stamp_le
  sorted n := by
    rw [h.edges_eq]
    exact hg.sorted n
  target_lt he := h.edgesLead hg.edgesLead he

theorem graph_extends : g.Extends g' :=
  ⟨Nat.le_of_eq h.size_eq.symm, fun _ => h.type_eq _, fun _ => h.edges_eq _⟩

end Noted

/-! ## Settled graphs -/

/-- The structure of the episode is the committed one: no scratch state is live. -/
def Settled (g : Graph) : Prop := ∀ n : NodeId,
  g.deref n = n ∧ g.currentType n = g.type n ∧ g.currentEdges n = g.edges n

theorem AtRest.settled {g : Graph} (h : g.AtRest) : g.Settled := fun n =>
  ⟨h.deref_eq n, h.currentType_eq n, by rw [currentEdges, h.pending_eq]⟩

/-- What notes say of pointers, copies and edges does not depend on what is committed. -/
theorem reads_congr {g g' : Graph} (hgeneration : g'.generation = g.generation) {n m : Nat}
    (hslots : (g'.node n).slots = (g.node m).slots) :
    g'.forward? n = g.forward? m ∧ g'.copyMark n = g.copyMark m ∧ g'.pending n = g.pending m := by
  unfold forward? copyMark pending slots Node.slotsIn
  rw [hslots, hgeneration]
  split <;> exact ⟨rfl, rfl, rfl⟩

/-! ## Growing -/

/-- The second graph is the first one with more nodes, which no episode has touched. -/
structure Grown (g g' : Graph) : Prop where
  generation_eq : g'.generation = g.generation
  size_le : g.size ≤ g'.size
  old : ∀ {n : Nat}, n < g.size → g'.node n = g.node n
  fresh : ∀ {n : Nat}, g.size ≤ n → ∃ type edges, g'.node n = .fresh type edges

namespace Grown

theorem refl (g : Graph) : g.Grown g where
  generation_eq := rfl
  size_le := Nat.le_refl _
  old _ := rfl
  fresh hn := ⟨_, _, node_of_le hn⟩

variable {g g' : Graph} (h : g.Grown g')
include h

theorem graph_extends : g.Extends g' := extends_of_node_eq h.size_le fun _ => h.old

/-- Without its new nodes the graph is the one that it was. -/
theorem truncate_eq : g'.truncate g.size = g := by
  have hnodes : g'.nodes.take g.size = g.nodes := by
    have hle : g.nodes.size ≤ g'.nodes.size := h.size_le
    refine Array.ext (by simp [size, hle]) fun i _ hi => ?_
    have hnode := h.old hi
    rw [node, node, Array.getD_eq_getD_getElem?, Array.getD_eq_getD_getElem?,
      Array.getElem?_eq_getElem hi, Array.getElem?_eq_getElem (Nat.lt_of_lt_of_le hi hle)] at hnode
    simpa using hnode
  rw [truncate, hnodes, h.generation_eq]

/-- Another new node. -/
theorem add (type : TypeId) (edges : List Edge) : g.Grown (g'.add type edges) where
  generation_eq := h.generation_eq
  size_le := by
    rw [size_add]
    exact Nat.le_succ_of_le h.size_le
  old hn := by
    rw [node_add, if_neg (Nat.ne_of_lt (Nat.lt_of_lt_of_le hn h.size_le))]
    exact h.old hn
  fresh hn := by
    rw [node_add]
    split
    · exact ⟨_, _, rfl⟩
    · exact h.fresh hn

/-- A change of what is committed at a new node. -/
theorem modify {n : Nat} (hn : g.size ≤ n) {f : Node → Node}
    (hf : ∀ node, (f node).slots = node.slots) :
    g.Grown ({ g' with nodes := g'.nodes.modify n f } : Graph) where
  generation_eq := h.generation_eq
  size_le := Nat.le_trans h.size_le (Nat.le_of_eq (by simp [size]))
  old {m} hm := by
    rw [node_modify, if_neg fun hc => ?_]
    · exact h.old hm
    · exact Nat.not_le.2 hm (hc.1 ▸ hn)
  fresh {m} hm := by
    obtain ⟨type, edges, heq⟩ := h.fresh hm
    rw [node_modify]
    split
    · refine ⟨_, _, Node.eq_fresh ((hf _).trans ?_)⟩
      rw [heq]
      rfl
    · exact ⟨type, edges, heq⟩

/-- All notes are as before. -/
theorem slots_eq (m : Nat) : (g'.node m).slots = (g.node m).slots := by
  rcases Nat.lt_or_ge m g.size with hm | hm
  · rw [h.old hm]
  · obtain ⟨type, edges, heq⟩ := h.fresh hm
    rw [heq, node_of_le hm]
    rfl

theorem forward?_eq (m : Nat) : g'.forward? m = g.forward? m :=
  (reads_congr h.generation_eq (h.slots_eq m)).1

theorem pending_eq (m : Nat) : g'.pending m = g.pending m :=
  (reads_congr h.generation_eq (h.slots_eq m)).2.2

theorem currentType_eq {m : Nat} (hm : m < g.size) : g'.currentType m = g.currentType m := by
  rw [currentType, slots, h.old hm, h.generation_eq]
  rfl

theorem stamped (hg : g.Stamped) : g'.Stamped := by
  refine hg.of_nodes h.generation_eq fun m => ?_
  rcases Nat.lt_or_ge m g.size with hm | hm
  · rw [h.old hm]
    exact hg.stamp_le m
  · obtain ⟨type, edges, heq⟩ := h.fresh hm
    rw [heq]
    exact Nat.zero_le _

theorem atRest (hg : g.Stamped) (hr : g.AtRest) : g'.AtRest := by
  intro m
  rw [h.generation_eq]
  rcases Nat.lt_or_ge m g.size with hm | hm
  · rw [h.old hm]
    exact hr m
  · obtain ⟨type, edges, heq⟩ := h.fresh hm
    rw [heq]
    exact Nat.ne_of_lt hg.generation_pos

end Grown

/-- New nodes whose edges are in order and lead among them. -/
structure Added (g g' : Graph) : Prop where
  grown : g.Grown g'
  sorted : ∀ {n : Nat}, g.size ≤ n → Edges.Sorted (g'.edges n)
  edge : ∀ {n : Nat} {e : Edge}, g.size ≤ n → e ∈ g'.edges n →
    g.size ≤ e.target ∧ e.target < g'.size

namespace Added

variable {g g' : Graph}

theorem refl (g : Graph) : g.Added g := by
  refine ⟨.refl g, fun hn => ?_, fun hn he => ?_⟩
  · rw [edges, node_of_le hn]
    exact Edges.sorted_nil
  · rw [edges, node_of_le hn] at he
    cases he

theorem addBlank (h : g.Added g') (type : TypeId) : g.Added (g'.add type []) where
  grown := h.grown.add ..
  sorted hn := by
    rw [edges_add]
    split
    · exact Edges.sorted_nil
    · exact h.sorted hn
  edge {n e} hn he := by
    rw [edges_add] at he
    rw [size_add]
    split at he
    · cases he
    · exact ⟨(h.edge hn he).1, Nat.lt_succ_of_lt (h.edge hn he).2⟩

/-- A new node gets another type. -/
theorem setType (h : g.Added g') {n : Nat} (hn : g.size ≤ n) (type : TypeId) :
    g.Added (g'.setType n type) where
  grown := h.grown.modify hn fun _ => rfl
  sorted hm := by
    rw [edges_setType]
    exact h.sorted hm
  edge hm he := by
    rw [edges_setType] at he
    rw [size_setType]
    exact h.edge hm he

/-- A new node gets a new node for a value. -/
theorem putEdge (h : g.Added g') {n value : Nat} (hn : g.size ≤ n) (feature : FeatureId)
    (hvalue : g.size ≤ value ∧ value < g'.size) : g.Added (g'.putEdge n feature value) where
  grown := h.grown.modify hn fun _ => rfl
  sorted hm := by
    rw [edges_putEdge]
    split
    · exact Edges.sorted_put (h.sorted hm) _ _
    · exact h.sorted hm
  edge {m e} hm he := by
    rw [edges_putEdge] at he
    rw [size_putEdge]
    split at he
    · rcases Edges.mem_put he with rfl | he
      · exact hvalue
      · exact h.edge hm he
    · exact h.edge hm he

/-- Whatever is below a new node is new. -/
theorem of_below (h : g.Added g') {root n : Nat} (hroot : g.size ≤ root ∧ root < g'.size)
    (hn : g'.Below root n) : g.size ≤ n ∧ n < g'.size := by
  induction hn with
  | refl => exact hroot
  | tail _ hstep ih =>
    obtain ⟨e, he, rfl⟩ := hstep
    exact h.edge ih.1 he

theorem sound (h : g.Added g') (hg : g.Sound) : g'.Sound where
  generation_pos := (h.grown.stamped hg.stamped).generation_pos
  stamp_le := (h.grown.stamped hg.stamped).stamp_le
  sorted n := by
    rcases Nat.lt_or_ge n g.size with hn | hn
    · rw [h.grown.graph_extends.edges_eq hn]
      exact hg.sorted n
    · exact h.sorted hn
  target_lt {n e} he := by
    rcases Nat.lt_or_ge n g.size with hn | hn
    · rw [h.grown.graph_extends.edges_eq hn] at he
      exact Nat.lt_of_lt_of_le (hg.target_lt he) h.grown.size_le
    · exact (h.edge hn he).2

end Added

/-! ## What is below a node that is moved -/

/-- What is below a node that is moved down is moved down along with it. -/
theorem below_compact {g : Graph} {first start : Nat} (hfirst : first ≤ start)
    (hstart : start ≤ g.size)
    (hnew : ∀ {n : Nat} {e : Edge}, start ≤ n → e ∈ g.edges n → start ≤ e.target) {k : Nat}
    (hk : start ≤ k) {m : NodeId} : (g.compact first start).Below (shifted first start k) m ↔
      ∃ n : Nat, start ≤ n ∧ g.Below k n ∧ shifted first start n = m := by
  have hedges : ∀ {n : Nat}, start ≤ n → (g.compact first start).edges (shifted first start n) =
      Edges.mapTargets (shifted first start) (g.edges n) := by
    intro n hn
    rw [edges, node_compact_shifted hfirst hstart hn]
  constructor
  · intro hm
    induction hm with
    | refl => exact ⟨k, hk, ReflTransGen.refl, rfl⟩
    | tail _ hstep ih =>
      obtain ⟨n, hn, hbelow, rfl⟩ := ih
      obtain ⟨e, he, rfl⟩ := hstep
      rw [hedges hn] at he
      obtain ⟨d, hd, -, heq⟩ := Edges.mem_mapTargets.1 he
      exact ⟨d.target, hnew hn hd, hbelow.edge hd, heq⟩
  · rintro ⟨n, -, hbelow, rfl⟩
    suffices h : start ≤ n ∧ (g.compact first start).Below (shifted first start k)
      (shifted first start n) from h.2
    induction hbelow with
    | refl => exact ⟨hk, ReflTransGen.refl⟩
    | tail _ hstep ih =>
      obtain ⟨hn, hbelow⟩ := ih
      obtain ⟨e, he, rfl⟩ := hstep
      refine ⟨hnew hn he, hbelow.tail ⟨⟨e.feature, shifted first start e.target⟩, ?_, rfl⟩⟩
      rw [hedges hn]
      exact Edges.mem_mapTargets.2 ⟨e, he, rfl, rfl⟩

/-! ## Links -/

/-- What leads from a node to another: an edge, committed or not, or a pointer. -/
inductive Link (g : Graph) : NodeId → NodeId → Prop
  | edge {n : NodeId} {e : Edge} (he : e ∈ g.edges n) : Link g n e.target
  | pending {n : NodeId} {e : Edge} (he : e ∈ g.pending n) : Link g n e.target
  | forward {n m : NodeId} (hf : g.forward? n = some m) : Link g n m

/-- What holds of a graph between two operations, also while an episode is open. -/
structure Linked (g : Graph) : Prop where
  stamped : g.Stamped
  link_lt : ∀ {n m : Nat}, g.Link n m → m < g.size
  ends : ∀ n, ∃ r, g.Ends n r
  copyMark_eq : ∀ n, g.copyMark n = .blank

theorem linked_of_atRest {g : Graph} (hg : g.Stamped) (hr : g.AtRest) (hlead : g.EdgesLead) :
    g.Linked where
  stamped := hg
  link_lt h := by
    cases h with
    | edge he => exact hlead he
    | pending he =>
      rw [hr.pending_eq] at he
      cases he
    | forward hf =>
      rw [hr.forward_eq] at hf
      cases hf
  ends n := ⟨n, ends_self (hr.forward_eq n)⟩
  copyMark_eq := hr.copyMark_eq

theorem atRest_empty : empty.AtRest := by
  intro n
  rw [node_of_le (Nat.zero_le n)]
  exact Nat.zero_ne_one

theorem linked_empty : empty.Linked :=
  linked_of_atRest stamped_empty atRest_empty sound_empty.edgesLead

theorem ends_congr {g g' : Graph} (hf : ∀ m, g'.forward? m = g.forward? m) {n r : NodeId} :
    g'.Ends n r ↔ g.Ends n r := by
  simp only [Ends, hf]

/-- A chain from a node that stays does not leave what stays. -/
theorem Ends.truncate {g : Graph} {n r size : Nat} (h : g.Ends n r)
    (hkeep : ∀ {n m : Nat}, g.forward? n = some m → n < size → m < size) (hn : n < size) :
    (g.truncate size).Ends n r := by
  have hread : ∀ {n : Nat}, n < size → (g.truncate size).forward? n = g.forward? n := by
    intro n hn
    have hgeneration : (g.truncate size).generation = g.generation := rfl
    have hnode : (g.truncate size).node n = g.node n := (node_truncate ..).trans (if_pos hn)
    exact (reads_congr hgeneration (congrArg Node.slots hnode)).1
  obtain ⟨hpath, hlast⟩ := h
  have hchain : r < size ∧
      ReflTransGen (fun n m => (g.truncate size).forward? n = some m) n r := by
    clear hlast
    induction hpath with
    | refl => exact ⟨hn, ReflTransGen.refl⟩
    | tail _ hf ih => exact ⟨hkeep hf ih.1, ih.2.tail ((hread ih.1).trans hf)⟩
  exact ⟨hchain.2, (hread hchain.1).trans hlast⟩

/-- Two different nodes of the graph that stand for themselves. -/
structure Distinct (g : Graph) (first second : Nat) : Prop where
  first_lt : first < g.size
  second_lt : second < g.size
  first_self : g.forward? first = none
  second_self : g.forward? second = none
  ne : first ≠ second

namespace Distinct

variable {g : Graph} {first second : Nat} (h : g.Distinct first second)
include h

theorem symm : g.Distinct second first :=
  ⟨h.second_lt, h.first_lt, h.second_self, h.first_self, h.ne.symm⟩

theorem setCurrentType (n : NodeId) (type : TypeId) :
    (g.setCurrentType n type).Distinct first second where
  first_lt := Nat.lt_of_lt_of_eq h.first_lt (size_note ..).symm
  second_lt := Nat.lt_of_lt_of_eq h.second_lt (size_note ..).symm
  first_self := (forward?_setCurrentType g n first type).trans h.first_self
  second_self := (forward?_setCurrentType g n second type).trans h.second_self
  ne := h.ne

end Distinct

namespace Linked

variable {g : Graph} (h : g.Linked)
include h

/-! ### Nodes that stand for others -/

theorem ends_deref (n : NodeId) : g.Ends n (g.deref n) := by
  obtain ⟨r, hr⟩ := h.ends n
  rwa [deref_of_ends h.stamped.generation_pos hr]

theorem deref_eq {n r : NodeId} (hr : g.Ends n r) : g.deref n = r :=
  deref_of_ends h.stamped.generation_pos hr

theorem forward_deref (n : NodeId) : g.forward? (g.deref n) = none := (h.ends_deref n).2

theorem deref_deref (n : NodeId) : g.deref (g.deref n) = g.deref n :=
  h.deref_eq (ends_self (h.forward_deref n))

/-- What is below a node that stands for others does so too. -/
theorem deref_of_reach {x n : NodeId} (hn : g.view.Reach (g.deref x) n) : g.deref n = n := by
  rcases ReflTransGen.cases_tail hn with heq | ⟨m, -, e, he, rfl⟩
  · rw [heq, h.deref_deref]
  · obtain ⟨d, -, -, htarget⟩ := Edges.mem_mapTargets.1 he
    rw [← htarget, h.deref_deref]

theorem deref_lt {n : Nat} (hn : n < g.size) : g.deref n < g.size := by
  rcases ReflTransGen.cases_tail (h.ends_deref n).1 with heq | ⟨m, -, hf⟩
  · rw [heq]
    exact hn
  · exact h.link_lt (.forward hf)

theorem distinct_deref {left right : Nat} (hleft : left < g.size) (hright : right < g.size)
    (hne : g.deref left ≠ g.deref right) : g.Distinct (g.deref left) (g.deref right) :=
  ⟨h.deref_lt hleft, h.deref_lt hright, h.forward_deref left, h.forward_deref right, hne⟩

theorem currentEdge_lt {n m : Nat} {f : FeatureId} (hm : g.currentEdge? n f = some m) :
    m < g.size := by
  unfold currentEdge? at hm
  split at hm
  · rename_i hv
    cases hm
    exact h.link_lt (.edge (Edges.mem_of_target? hv))
  · exact h.link_lt (.pending (Edges.mem_of_target? hm))

theorem currentValue?_lt {n m : Nat} {f : FeatureId} (hm : g.currentValue? n f = some m) :
    m < g.size := by
  obtain ⟨target, htarget, rfl⟩ := Option.map_eq_some_iff.1 hm
  exact h.deref_lt (h.currentEdge_lt htarget)

theorem currentEdges_lt {n : Nat} {e : Edge} (he : e ∈ g.currentEdges n) : e.target < g.size := by
  rcases mem_currentEdges_iff.1 he with he | he
  · exact h.link_lt (.edge he)
  · exact h.link_lt (.pending he)

/-- What is below a node of the graph is a node of the graph. -/
theorem reach_lt {x n : Nat} (hx : x < g.size) (hn : g.view.Reach (g.deref x) n) : n < g.size := by
  rcases ReflTransGen.cases_tail hn with rfl | ⟨m, -, e, he, rfl⟩
  · exact h.deref_lt hx
  · obtain ⟨d, hd, -, htarget⟩ := Edges.mem_mapTargets.1 he
    rw [← htarget]
    exact h.deref_lt (h.currentEdges_lt hd)

/-! ### Operations -/

/-- A change that leaves the pointers and marks as they are and makes no bad links. -/
theorem of_forward_eq {g' : Graph} (hstamped : g'.Stamped)
    (hforward : ∀ n, g'.forward? n = g.forward? n) (hmark : ∀ n, g'.copyMark n = g.copyMark n)
    (hlt : ∀ {n m : Nat}, g'.Link n m → m < g'.size) : g'.Linked where
  stamped := hstamped
  link_lt := hlt
  ends n := by
    obtain ⟨r, hr⟩ := h.ends n
    exact ⟨r, (ends_congr hforward).2 hr⟩
  copyMark_eq n := (hmark n).trans (h.copyMark_eq n)

/-- A change of what is committed, or new nodes. -/
theorem of_slots_eq {g' : Graph} (hgeneration : g'.generation = g.generation)
    (hslots : ∀ n : Nat, (g'.node n).slots = (g.node n).slots) (hsize : g.size ≤ g'.size)
    (hlead : g'.EdgesLead) : g'.Linked := by
  have hreads := fun n => reads_congr hgeneration (hslots n)
  have hstamped : g'.Stamped := h.stamped.of_nodes hgeneration fun n => by
    rw [hslots]
    exact h.stamped.stamp_le n
  refine h.of_forward_eq hstamped (fun n => (hreads n).1) (fun n => (hreads n).2.1) ?_
  rintro n _ (he | he | hf)
  · exact hlead he
  · rw [(hreads n).2.2] at he
    exact Nat.lt_of_lt_of_le (h.link_lt (.pending he)) hsize
  · rw [(hreads n).1] at hf
    exact Nat.lt_of_lt_of_le (h.link_lt (.forward hf)) hsize

theorem edgesLead : g.EdgesLead := fun _ _ he => h.link_lt (.edge he)

theorem grown {g' : Graph} (hg : g.Grown g') (hlt : ∀ {n : Nat} {e : Edge},
    g.size ≤ n → n < g'.size → e ∈ g'.edges n → e.target < g'.size) : g'.Linked :=
  h.of_slots_eq hg.generation_eq hg.slots_eq hg.size_le
    (hg.graph_extends.edgesLead h.edgesLead hlt)

theorem added {g' : Graph} (ha : g.Added g') : g'.Linked :=
  h.grown ha.grown fun hn _ he => (ha.edge hn he).2

/-- A change of the committed part of a node. -/
theorem modify (n : NodeId) {f : Node → Node} (hslots : ∀ node, (f node).slots = node.slots)
    (hedges : ∀ node, ∀ e ∈ (f node).edges, e ∈ node.edges ∨ e.target < g.size) :
    ({ g with nodes := g.nodes.modify n f } : Graph).Linked := by
  have hsize : ({ g with nodes := g.nodes.modify n f } : Graph).size = g.size := by simp [size]
  refine h.of_slots_eq rfl (fun m => ?_) (Nat.le_of_eq hsize.symm) fun m e he => ?_
  · rw [node_modify]
    split
    · exact hslots _
    · rfl
  · rw [hsize]
    rw [edges, node_modify] at he
    split at he
    · exact (hedges _ e he).elim (fun he => h.edgesLead he) id
    · exact h.edgesLead he

theorem setType (n : NodeId) (type : TypeId) : (g.setType n type).Linked :=
  h.modify n (fun _ => rfl) fun _ _ he => .inl he

theorem putEdge (n : NodeId) (feature : FeatureId) {target : Nat} (ht : target < g.size) :
    (g.putEdge n feature target).Linked := by
  refine h.modify n (fun _ => rfl) fun node e he => ?_
  rcases Edges.mem_put he with rfl | he
  · exact .inr ht
  · exact .inl he

theorem dropEdge (n : NodeId) (feature : FeatureId) : (g.dropEdge n feature).Linked :=
  h.modify n (fun _ => rfl) fun _ _ he => .inl (List.mem_filter.1 he).1

/-- The copy of a structure of another graph. -/
theorem copyFrom {source : Graph} (hs : source.EdgesLead) {root : Nat}
    (hroot : root < source.size) : (g.copyFrom source root).Linked := by
  obtain ⟨c, hc, heq⟩ := g.growing_copyFrom (hs.whole hroot)
  rw [heq]
  refine h.grown ⟨hc.generation_eq, hc.size_le, hc.old, fun {k} hk => ?_⟩ fun {k e} hk hlt he => ?_
  · rcases Nat.lt_or_ge k c.graph.size with hlt | hge
    · obtain ⟨n, hn⟩ := hc.surj hk hlt
      exact ⟨_, hc.node hn⟩
    · exact ⟨_, _, node_of_le hge⟩
  · -- the targets of a copy are copies
    obtain ⟨n, hn⟩ := hc.surj hk hlt
    obtain ⟨hedges, hall⟩ := (hc.edges hn).resolve_left List.not_mem_nil
    rw [hedges] at he
    obtain ⟨d, hd, -, heq⟩ := Edges.mem_mapTargets.1 he
    obtain ⟨k', hk'⟩ := hall d hd
    rw [← heq, Copying.image, hk']
    exact hc.copy_lt hk'

/-- The next episode. -/
theorem invalidate : g.invalidate.Linked := by
  obtain ⟨hstamped, hrest⟩ := h.stamped.invalidate
  exact linked_of_atRest hstamped hrest h.edgesLead.invalidate

/-- Nothing is noted at a node that was dropped. -/
theorem slots_truncate_of_le {size n : Nat} (hn : size ≤ n) :
    (g.truncate size).slots n = .unset g.generation .top := by
  rw [slots, node_truncate, if_neg (Nat.not_lt.2 hn)]
  exact if_neg (Nat.ne_of_lt h.stamped.generation_pos)

/-- The links that are left are those of the nodes that are left. -/
theorem link_of_truncate {size n m : Nat} (hlink : (g.truncate size).Link n m) :
    n < size ∧ g.Link n m := by
  rcases Nat.lt_or_ge n size with hn | hn
  · have hold : (g.truncate size).node n = g.node n := (node_truncate ..).trans (if_pos hn)
    obtain ⟨hforward, -, hpending⟩ :=
      reads_congr (g := g) (rfl : (g.truncate size).generation = g.generation)
        (congrArg Node.slots hold)
    refine ⟨hn, ?_⟩
    cases hlink with
    | edge he => exact .edge (by rwa [edges, hold] at he)
    | pending he => exact .pending (hpending ▸ he)
    | forward hf => exact .forward (hforward ▸ hf)
  · cases hlink with
    | edge he =>
      rw [edges, node_truncate, if_neg (Nat.not_lt.2 hn)] at he
      cases he
    | pending he =>
      rw [pending, h.slots_truncate_of_le hn] at he
      cases he
    | forward hf =>
      rw [forward?, h.slots_truncate_of_le hn] at hf
      cases hf

/-- Nodes that no link of an earlier node leads to are dropped. -/
theorem truncate {size : Nat} (hkeep : ∀ {n m : Nat}, g.Link n m → n < size → m < size) :
    (g.truncate size).Linked := by
  refine ⟨h.stamped.truncate size, fun {n m} hlink => ?_, fun n => ?_, fun n => ?_⟩
  · obtain ⟨hn, hlink⟩ := h.link_of_truncate hlink
    rw [size_truncate]
    exact Nat.lt_min.2 ⟨hkeep hlink hn, h.link_lt hlink⟩
  · rcases Nat.lt_or_ge n size with hn | hn
    · obtain ⟨r, hr⟩ := h.ends n
      exact ⟨r, hr.truncate (fun hf => hkeep (.forward hf)) hn⟩
    · refine ⟨n, ends_self ?_⟩
      rw [forward?, h.slots_truncate_of_le hn]
      rfl
  · rcases Nat.lt_or_ge n size with hn | hn
    · have hold : (g.truncate size).node n = g.node n := (node_truncate ..).trans (if_pos hn)
      exact (reads_congr (g := g) (rfl : (g.truncate size).generation = g.generation)
        (congrArg Node.slots hold)).2.1.trans (h.copyMark_eq n)
    · rw [copyMark, h.slots_truncate_of_le hn]
      rfl

/-- The next episode, with the nodes that an earlier graph had. -/
theorem abandon {g₀ : Graph} (hlead : g₀.EdgesLead) (hext : g₀.Extends g) :
    (g.invalidate.truncate g₀.size).Linked := by
  obtain ⟨hstamped, hrest⟩ := h.stamped.invalidate
  have hext' := hext.trans (extends_invalidate g)
  have hsize : (g.invalidate.truncate g₀.size).size = g₀.size :=
    (size_truncate ..).trans (Nat.min_eq_left hext'.size_le)
  exact linked_of_atRest (hstamped.truncate _) (hrest.truncate hstamped _)
    (hext'.truncate.edgesLead_of_size_eq hsize hlead)

/-- Nodes are dropped and later ones moved down, when no episode is open. -/
theorem compact (hr : g.AtRest) {first start : Nat} (hfirst : first ≤ start)
    (hstart : start ≤ g.size)
    (hearly : ∀ {n : Nat} {e : Edge}, n < first → e ∈ g.edges n → e.target < first)
    (hlate : ∀ {n : Nat} {e : Edge}, start ≤ n → e ∈ g.edges n →
      e.target < first ∨ start ≤ e.target) : (g.compact first start).Linked := by
  refine linked_of_atRest (h.stamped.compact ..) (hr.compact first start) fun n e he => ?_
  rw [size_compact g hfirst hstart]
  rcases Nat.lt_or_ge n first with hn | hn
  · rw [edges, node_compact_of_lt hfirst hstart hn] at he
    exact Nat.lt_of_lt_of_le (hearly hn he) (by omega)
  · obtain ⟨m, hm, rfl, -⟩ := exists_shifted_of_le hfirst hn
    rw [edges, node_compact_shifted hfirst hstart hm] at he
    obtain ⟨d, hd, -, heq⟩ := Edges.mem_mapTargets.1 he
    have hlt : d.target < g.size := h.edgesLead hd
    rw [← heq]
    rcases hlate hm hd with hd | hd
    · rw [shifted, if_neg (Nat.not_le.2 (Nat.lt_of_lt_of_le hd hfirst))]
      exact Nat.lt_of_lt_of_le hd (by omega)
    · rw [shifted_of_le hd]
      exact Nat.sub_lt_sub_right (Nat.le_trans (Nat.sub_le start first) hd) hlt

theorem setCurrentType (n : NodeId) (type : TypeId) : (g.setCurrentType n type).Linked := by
  refine h.of_forward_eq (h.stamped.setCurrentType ..) (forward?_setCurrentType g n · type)
    (copyMark_setCurrentType g n · type) ?_
  have hsize : (g.setCurrentType n type).size = g.size := size_note ..
  rintro m _ (he | he | hf) <;> rw [hsize]
  · rw [Graph.setCurrentType, edges_note] at he
    exact h.link_lt (.edge he)
  · rw [pending_setCurrentType] at he
    exact h.link_lt (.pending he)
  · rw [forward?_setCurrentType] at hf
    exact h.link_lt (.forward hf)

theorem addPending {n : Nat} (hn : n < g.size) {e : Edge} (ht : e.target < g.size) :
    (g.addPending n e).Linked := by
  refine h.of_forward_eq (h.stamped.addPending ..) (forward?_addPending g n · e)
    (copyMark_addPending g n · e) ?_
  have hsize : (g.addPending n e).size = g.size := size_note ..
  rintro m _ (he | he | hf) <;> rw [hsize]
  · rw [Graph.addPending, edges_note] at he
    exact h.link_lt (.edge he)
  · rw [pending_addPending _ hn] at he
    split at he
    · rcases Edges.mem_put he with rfl | he
      · exact ht
      · exact h.link_lt (.pending he)
    · exact h.link_lt (.pending he)
  · rw [forward?_addPending] at hf
    exact h.link_lt (.forward hf)

section SetForward

variable {loser winner : Nat} (hd : g.Distinct loser winner)
include hd

/-- Chains that ended at the absorbed node end at the survivor. -/
theorem ends_setForward (n : NodeId) : (g.setForward loser winner).Ends n
    (if g.deref n = loser then winner else g.deref n) := by
  have hend : ∀ {m}, g.forward? m = none → m ≠ loser →
      (g.setForward loser winner).forward? m = none := by
    intro m hm hml
    rw [forward?_setForward _ hd.first_lt, if_neg (Ne.symm hml)]
    exact hm
  -- a node with a pointer is not the absorbed one, so the chain so far stays
  have hchain : ∀ {n r}, ReflTransGen (fun n m => g.forward? n = some m) n r →
      ReflTransGen (fun n m => (g.setForward loser winner).forward? n = some m) n r := by
    intro n r hpath
    refine ReflTransGen.mono (fun n m hf => ?_) _ _ hpath
    rw [forward?_setForward _ hd.first_lt, if_neg]
    · exact hf
    · rintro rfl
      rw [hd.first_self] at hf
      cases hf
  obtain ⟨hpath, hlast⟩ := h.ends_deref n
  split
  · rename_i heq
    rw [heq] at hpath
    refine ⟨(hchain hpath).tail ?_, hend hd.second_self (Ne.symm hd.ne)⟩
    rw [forward?_setForward _ hd.first_lt, if_pos rfl]
  · rename_i hnl
    exact ⟨hchain hpath, hend hlast hnl⟩

theorem setForward : (g.setForward loser winner).Linked where
  stamped := h.stamped.setForward ..
  ends n := ⟨_, h.ends_setForward hd n⟩
  link_lt := by
    have hsize : (g.setForward loser winner).size = g.size := size_note ..
    rintro m _ (he | he | hf) <;> rw [hsize]
    · rw [Graph.setForward, edges_note] at he
      exact h.link_lt (.edge he)
    · rw [pending_setForward] at he
      exact h.link_lt (.pending he)
    · rw [forward?_setForward _ hd.first_lt] at hf
      split at hf
      · cases hf
        exact hd.second_lt
      · exact h.link_lt (.forward hf)
  copyMark_eq n := (copyMark_setForward ..).trans (h.copyMark_eq n)

theorem deref_setForward (n : NodeId) : (g.setForward loser winner).deref n =
    if g.deref n = loser then winner else g.deref n :=
  (h.setForward hd).deref_eq (h.ends_setForward hd n)

end SetForward

end Linked

end Graph

end FeatureLogic
