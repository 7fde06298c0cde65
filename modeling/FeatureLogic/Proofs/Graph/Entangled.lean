import FeatureLogic.Proofs.Graph.Linked

/-!
Graphs in an episode. In an entangled graph every chain of pointers ends and pending edges add to
the committed ones; the operations of a unification keep this, and each changes one thing of what
`deref`, `currentType` and `currentEdge?` tell.
-/

open Relation

namespace FeatureLogic

namespace Graph

/-- What holds of a graph while nodes are unified in it. -/
structure Entangled (g : Graph) : Prop where
  sound : g.Sound
  ends : ∀ n, ∃ r, g.Ends n r
  forward_lt : ∀ {n m : Nat}, g.forward? n = some m → m < g.size
  pending_sorted : ∀ n, Edges.Sorted (g.pending n)
  pending_lt : ∀ {n : Nat} {e : Edge}, e ∈ g.pending n → e.target < g.size
  pending_new : ∀ {n : Nat} {e : Edge}, e ∈ g.pending n → g.value? n e.feature = none
  copyMark_eq : ∀ n, g.copyMark n = .blank

theorem entangled_of_atRest {g : Graph} (hg : g.Sound) (hr : g.AtRest) : g.Entangled where
  sound := hg
  ends n := ⟨n, ends_self (hr.forward_eq n)⟩
  forward_lt {n m} h := by
    rw [hr.forward_eq] at h
    cases h
  pending_sorted n := by
    rw [hr.pending_eq]
    exact Edges.sorted_nil
  pending_lt {n e} he := by
    rw [hr.pending_eq] at he
    cases he
  pending_new {n e} he := by
    rw [hr.pending_eq] at he
    cases he
  copyMark_eq := hr.copyMark_eq

/-- Edges rise by feature, those that a node gained in the episode as well, and no node gained a
feature that it had. -/
structure Ordered (g : Graph) : Prop where
  sorted : ∀ n, Edges.Sorted (g.edges n)
  pending_sorted : ∀ n, Edges.Sorted (g.pending n)
  pending_new : ∀ {n : Nat} {e : Edge}, e ∈ g.pending n → g.value? n e.feature = none

theorem Entangled.ordered {g : Graph} (h : g.Entangled) : g.Ordered :=
  ⟨h.sound.sorted, h.pending_sorted, h.pending_new⟩

/-- A graph is fit for unification when its links lead to nodes and its edges are in order. -/
theorem Linked.entangled {g : Graph} (h : g.Linked) (ho : g.Ordered) : g.Entangled where
  sound := ⟨h.stamped.generation_pos, h.stamped.stamp_le, ho.sorted, fun he => h.link_lt (.edge he)⟩
  ends := h.ends
  forward_lt hf := h.link_lt (.forward hf)
  pending_sorted := ho.pending_sorted
  pending_lt he := h.link_lt (.pending he)
  pending_new := ho.pending_new
  copyMark_eq := h.copyMark_eq

namespace Entangled

/-! ## Nodes that stand for others -/

section Deref

variable {g : Graph} (h : g.Entangled)
include h

theorem linked : g.Linked where
  stamped := h.sound.stamped
  link_lt hlink := by
    cases hlink with
    | edge he => exact h.sound.target_lt he
    | pending he => exact h.pending_lt he
    | forward hf => exact h.forward_lt hf
  ends := h.ends
  copyMark_eq := h.copyMark_eq

theorem ends_deref (n : NodeId) : g.Ends n (g.deref n) := h.linked.ends_deref n

theorem deref_eq {n r : NodeId} (hr : g.Ends n r) : g.deref n = r := h.linked.deref_eq hr

@[simp] theorem deref_deref (n : NodeId) : g.deref (g.deref n) = g.deref n := h.linked.deref_deref n

theorem deref_lt {n : Nat} (hn : n < g.size) : g.deref n < g.size := h.linked.deref_lt hn

end Deref

/-! ## Edges -/

section Edges

variable {g : Graph} (h : g.Entangled) {n : Nat}
include h

theorem currentEdge?_eq_some_iff {f : FeatureId} {m : NodeId} :
    g.currentEdge? n f = some m ↔ ⟨f, m⟩ ∈ g.edges n ∨ ⟨f, m⟩ ∈ g.pending n := by
  unfold currentEdge?
  cases hv : g.value? n f with
  | some k =>
    rw [← h.sound.value_eq_some_iff, hv]
    refine ⟨.inl, fun hm => hm.resolve_right fun hp => ?_⟩
    have := h.pending_new hp
    rw [hv] at this
    cases this
  | none =>
    rw [← h.sound.value_eq_some_iff, hv]
    simpa using Edges.target?_eq_some_iff (h.pending_sorted n)

theorem mem_currentEdges {e : Edge} :
    e ∈ g.currentEdges n ↔ g.currentEdge? n e.feature = some e.target := by
  rw [h.currentEdge?_eq_some_iff, mem_currentEdges_iff]

theorem sorted_currentEdges : Edges.Sorted (g.currentEdges n) := by
  unfold currentEdges
  split
  · exact h.sound.sorted n
  · -- no feature is in both lists, so what rises weakly rises strictly
    have hle : ∀ {list : List Edge}, Edges.Sorted list →
        list.Pairwise fun d e => decide (d.feature ≤ e.feature) = true :=
      fun hs => hs.imp fun hlt => decide_eq_true (Nat.le_of_lt hlt)
    have hmerge := @List.pairwise_merge Edge (fun d e => decide (d.feature ≤ e.feature))
      (fun a b c hab hbc => decide_eq_true (Nat.le_trans (of_decide_eq_true hab)
        (of_decide_eq_true hbc)))
      (fun a b => by simpa using Nat.le_total a.feature b.feature)
      (g.edges n) (g.pending n) (hle (h.sound.sorted n)) (hle (h.pending_sorted n))
    have hnodup : ((g.edges n).merge (g.pending n)
        fun d e => decide (d.feature ≤ e.feature)).Pairwise fun d e => d.feature ≠ e.feature := by
      refine (List.Perm.pairwise_iff (fun hne => hne.symm) (List.merge_perm_append _)).2 ?_
      refine List.pairwise_append.2 ⟨(h.sound.sorted n).imp Nat.ne_of_lt,
        (h.pending_sorted n).imp Nat.ne_of_lt, fun d hd e he heq => ?_⟩
      have hnone := h.pending_new he
      rw [← heq, h.sound.value_eq_some_iff.2 hd] at hnone
      cases hnone
    exact hmerge.imp₂ (fun d e hle hne => Nat.lt_of_le_of_ne (of_decide_eq_true hle) hne) hnodup

theorem target?_currentEdges (f : FeatureId) :
    Edges.target? f (g.currentEdges n) = g.currentEdge? n f := by
  refine Option.ext fun m => ?_
  rw [Edges.target?_eq_some_iff h.sorted_currentEdges, h.mem_currentEdges]

theorem currentEdge_lt {f : FeatureId} {m : NodeId} (hm : g.currentEdge? n f = some m) :
    m < g.size := by
  rcases h.currentEdge?_eq_some_iff.1 hm with he | he
  · exact h.sound.target_lt he
  · exact h.pending_lt he

theorem hasCurrentEdges_iff :
    g.hasCurrentEdges n = true ↔ ∃ f m, g.currentEdge? n f = some m := by
  have hcons : ∀ {list : List Edge}, (!list.isEmpty) = true ↔ ∃ f m, ⟨f, m⟩ ∈ list := by
    intro list
    cases list with
    | nil => simp
    | cons e rest => exact iff_of_true rfl ⟨e.feature, e.target, List.mem_cons_self ..⟩
  rw [hasCurrentEdges, Bool.or_eq_true, hcons, hcons]
  simp only [h.currentEdge?_eq_some_iff]
  constructor
  · rintro (⟨f, m, he⟩ | ⟨f, m, he⟩)
    · exact ⟨f, m, .inl he⟩
    · exact ⟨f, m, .inr he⟩
  · rintro ⟨f, m, he | he⟩
    · exact .inl ⟨f, m, he⟩
    · exact .inr ⟨f, m, he⟩

omit h in
theorem length_currentEdges_le (g : Graph) (n : NodeId) : (g.currentEdges n).length ≤
    (g.edges n).length + (g.node n).slots.pending.length := by
  have hp : (g.pending n).length ≤ (g.node n).slots.pending.length := by
    unfold pending slots Node.slotsIn
    split
    · exact Nat.le_refl _
    · exact Nat.zero_le _
  unfold currentEdges
  split
  · exact Nat.le_add_right _ _
  · rw [Edges.merge, List.length_merge]
    exact Nat.add_le_add_left hp _

end Edges

end Entangled

/-! ## Operations -/

section Operations

variable {g : Graph}

@[simp] theorem size_setForward (g : Graph) (n target : NodeId) :
    (g.setForward n target).size = g.size := size_note ..

@[simp] theorem size_setCurrentType (g : Graph) (n : NodeId) (type : TypeId) :
    (g.setCurrentType n type).size = g.size := size_note ..

@[simp] theorem size_addPending (g : Graph) (n : NodeId) (e : Edge) :
    (g.addPending n e).size = g.size := size_note ..

theorem value?_note (g : Graph) (n m : NodeId) (f : Slots → Slots) (feature : FeatureId) :
    (g.note n f).value? m feature = g.value? m feature := by
  rw [value?, edges_note, value?]

theorem extends_note (g : Graph) (n : NodeId) (f : Slots → Slots) : g.Extends (g.note n f) :=
  ⟨Nat.le_of_eq (size_note ..).symm, fun _ => type_note .., fun _ => edges_note ..⟩

theorem extends_setForward (g : Graph) (n target : NodeId) : g.Extends (g.setForward n target) :=
  extends_note ..

theorem extends_setCurrentType (g : Graph) (n : NodeId) (type : TypeId) :
    g.Extends (g.setCurrentType n type) := extends_note ..

theorem extends_addPending (g : Graph) (n : NodeId) (e : Edge) : g.Extends (g.addPending n e) :=
  extends_note ..

theorem shape_note (g : Graph) (n : NodeId) (f : Slots → Slots) : (g.note n f).shape = g.shape := by
  unfold shape
  congr 1
  · funext m
    exact type_note ..
  · funext m feature
    exact value?_note ..

theorem currentEdge?_congr {g' : Graph} {n : NodeId} {f : FeatureId}
    (hv : g'.value? n f = g.value? n f) (hp : g'.pending n = g.pending n) :
    g'.currentEdge? n f = g.currentEdge? n f := by
  rw [currentEdge?, currentEdge?, hv, hp]

@[simp] theorem currentEdge?_setForward (g : Graph) (n m target : NodeId) (f : FeatureId) :
    (g.setForward n target).currentEdge? m f = g.currentEdge? m f :=
  currentEdge?_congr (value?_note ..) (pending_setForward ..)

@[simp] theorem currentEdge?_setCurrentType (g : Graph) (n m : NodeId) (type : TypeId)
    (f : FeatureId) : (g.setCurrentType n type).currentEdge? m f = g.currentEdge? m f :=
  currentEdge?_congr (value?_note ..) (pending_setCurrentType ..)

@[simp] theorem currentEdges_setCurrentType (g : Graph) (n m : NodeId) (type : TypeId) :
    (g.setCurrentType n type).currentEdges m = g.currentEdges m := by
  rw [currentEdges, pending_setCurrentType, setCurrentType, edges_note]
  rfl

@[simp] theorem hasCurrentEdges_setCurrentType (g : Graph) (n m : NodeId) (type : TypeId) :
    (g.setCurrentType n type).hasCurrentEdges m = g.hasCurrentEdges m := by
  rw [hasCurrentEdges, pending_setCurrentType, setCurrentType, edges_note]
  rfl

theorem hasCurrentEdges_of_currentEdge? {g : Graph} {n m : NodeId} {f : FeatureId}
    (h : g.currentEdge? n f = some m) : g.hasCurrentEdges n = true := by
  by_contra hnone
  simp only [hasCurrentEdges, Bool.not_eq_true, Bool.or_eq_false_iff, Bool.not_eq_false',
    List.isEmpty_iff] at hnone
  simp [currentEdge?, value?, hnone.1, hnone.2] at h

/-- A change of notes other than gained edges. -/
theorem Ordered.note (h : g.Ordered) {n : NodeId} {f : Slots → Slots}
    (hpending : ∀ m, (g.note n f).pending m = g.pending m) : (g.note n f).Ordered where
  sorted m := by
    rw [edges_note]
    exact h.sorted m
  pending_sorted m := by
    rw [hpending]
    exact h.pending_sorted m
  pending_new he := by
    rw [hpending] at he
    exact (value?_note ..).trans (h.pending_new he)

theorem Ordered.setCurrentType (h : g.Ordered) (n : NodeId) (type : TypeId) :
    (g.setCurrentType n type).Ordered :=
  h.note fun _ => pending_setCurrentType ..

theorem Ordered.setForward (h : g.Ordered) (n target : NodeId) : (g.setForward n target).Ordered :=
  h.note fun _ => pending_setForward ..

/-- A node gains a feature that it did not have. -/
theorem Ordered.addPending (h : g.Ordered) {n : Nat} {e : Edge}
    (hnew : g.currentEdge? n e.feature = none) : (g.addPending n e).Ordered := by
  -- only the pending edges of one node change, and by one feature
  have hpending : ∀ m : Nat, (g.addPending n e).pending m = g.pending m ∨
      n = m ∧ (g.addPending n e).pending m = Edges.put e.feature e.target (g.pending m) := by
    intro m
    rcases Nat.lt_or_ge n g.size with hn | hn
    · rw [pending_addPending _ hn]
      split
      · exact .inr ⟨‹_›, rfl⟩
      · exact .inl rfl
    · refine .inl ?_
      rw [Graph.addPending, pending, slots_note _ _ _ _ (by intro _; rfl),
        if_neg fun hc => Nat.not_lt.2 hn hc.2]
      rfl
  refine ⟨fun m => ?_, fun m => ?_, fun {m d} hd => (value?_note ..).trans ?_⟩
  · rw [Graph.addPending, edges_note]
    exact h.sorted m
  · rcases hpending m with heq | ⟨-, heq⟩ <;> rw [heq]
    · exact h.pending_sorted m
    · exact Edges.sorted_put (h.pending_sorted m) _ _
  · rcases hpending m with heq | ⟨rfl, heq⟩ <;> rw [heq] at hd
    · exact h.pending_new hd
    · rcases Edges.mem_put hd with rfl | hd
      · by_contra hsome
        obtain ⟨k, hk⟩ := Option.ne_none_iff_exists'.1 hsome
        rw [currentEdge?, hk] at hnew
        cases hnew
      · exact h.pending_new hd

/-- New nodes whose edges are in order. -/
theorem Ordered.added {g' : Graph} (h : g.Ordered) (hg : g.Stamped) (ha : g.Added g') :
    g'.Ordered where
  sorted n := by
    rcases Nat.lt_or_ge n g.size with hn | hn
    · rw [ha.grown.graph_extends.edges_eq hn]
      exact h.sorted n
    · exact ha.sorted hn
  pending_sorted n := by
    rw [ha.grown.pending_eq]
    exact h.pending_sorted n
  pending_new {n e} he := by
    rw [ha.grown.pending_eq] at he
    rcases Nat.lt_or_ge n g.size with hn | hn
    · exact (ha.grown.graph_extends.value_eq hn _).trans (h.pending_new he)
    · rw [pending, slots_of_le hg.generation_pos hn] at he
      cases he

theorem Entangled.added {g' : Graph} (h : g.Entangled) (ha : g.Added g') : g'.Entangled :=
  (h.linked.added ha).entangled (h.ordered.added h.sound.stamped ha)

/-- To give a node another type keeps everything but that type. -/
theorem Entangled.setCurrentType (h : g.Entangled) (n : NodeId) (type : TypeId) :
    (g.setCurrentType n type).Entangled :=
  (h.linked.setCurrentType n type).entangled (h.ordered.setCurrentType n type)

theorem Entangled.deref_setCurrentType (h : g.Entangled) (n m : NodeId) (type : TypeId) :
    (g.setCurrentType n type).deref m = g.deref m :=
  (h.setCurrentType n type).deref_eq
    ((ends_congr fun _ => forward?_setCurrentType ..).2 (h.ends_deref m))

section SetForward

variable (h : g.Entangled) {loser winner : Nat} (hd : g.Distinct loser winner)
include h hd

theorem Entangled.setForward : (g.setForward loser winner).Entangled :=
  (h.linked.setForward hd).entangled (h.ordered.setForward ..)

theorem Entangled.deref_setForward (n : NodeId) : (g.setForward loser winner).deref n =
    if g.deref n = loser then winner else g.deref n :=
  h.linked.deref_setForward hd n

end SetForward

section AddPending

variable (h : g.Entangled) {n : Nat} {e : Edge} (hn : n < g.size) (ht : e.target < g.size)
  (hnew : g.currentEdge? n e.feature = none)
include h hn hnew

omit h in
theorem Entangled.currentEdge?_addPending (m : Nat) (f : FeatureId) :
    (g.addPending n e).currentEdge? m f =
      if n = m ∧ e.feature = f then some e.target else g.currentEdge? m f := by
  by_cases hm : n = m
  · subst hm
    unfold currentEdge? at hnew
    have hvalue : g.value? n e.feature = none := by
      cases hv : g.value? n e.feature with
      | none => rfl
      | some k =>
        rw [hv] at hnew
        cases hnew
    have hsame : (g.addPending n e).value? n f = g.value? n f := value?_note ..
    rw [currentEdge?, hsame, pending_addPending _ hn, if_pos rfl, Edges.target?_put, currentEdge?]
    by_cases hf : e.feature = f
    · subst hf
      simp [hvalue]
    · simp [hf]
  · rw [if_neg fun hc => hm hc.1]
    refine currentEdge?_congr (value?_note ..) ?_
    rw [pending_addPending _ hn, if_neg hm]

include ht

theorem Entangled.addPending : (g.addPending n e).Entangled :=
  (h.linked.addPending hn ht).entangled (h.ordered.addPending hnew)

theorem Entangled.deref_addPending (m : NodeId) : (g.addPending n e).deref m = g.deref m :=
  (h.addPending hn ht hnew).deref_eq
    ((ends_congr fun _ => forward?_addPending ..).2 (h.ends_deref m))

end AddPending

end Operations

/-! ## Copies -/

namespace CopyOf

variable {g source g' : Graph} {root : Nat} {κ : NodeId → NodeId}

theorem graph_extends (hc : g.CopyOf source root g' κ) : g.Extends g' :=
  extends_of_node_eq hc.size_le fun _ => hc.old

section

variable (hc : g.CopyOf source root g' κ)
include hc

theorem type_copy {n : NodeId} (hn : source.shape.Reach root n) :
    g'.type (κ n) = source.type n := by
  rw [type, hc.node hn]
  rfl

theorem value?_copy {n : NodeId} (hn : source.shape.Reach root n) (f : FeatureId) :
    g'.value? (κ n) f = (source.value? n f).map κ := by
  rw [value?, edges, hc.node hn]
  exact Edges.target?_mapTargets ..

/-- The copy is the same structure. -/
theorem isomorphic : source.shape.Isomorphic root g'.shape (κ root) :=
  ⟨κ, rfl, fun _ hn _ hm => hc.inj hn hm, fun _ hn => ⟨hc.type_copy hn, hc.value?_copy hn⟩⟩

theorem grown : g.Grown g' where
  generation_eq := hc.generation_eq
  size_le := hc.size_le
  old := hc.old
  fresh {n} hn := by
    rcases Nat.lt_or_ge n g'.size with hlt | hge
    · obtain ⟨m, hm, rfl⟩ := hc.surj hn hlt
      exact ⟨_, _, hc.node hm⟩
    · exact ⟨_, _, node_of_le hge⟩

theorem added (hs : source.Sound) : g.Added g' := by
  have hedges : ∀ {n : Nat}, g.size ≤ n → g'.edges n = [] ∨ ∃ m,
      source.shape.Reach root m ∧ g'.edges n = Edges.mapTargets κ (source.edges m) := by
    intro n hn
    rcases Nat.lt_or_ge n g'.size with hlt | hge
    · obtain ⟨m, hm, rfl⟩ := hc.surj hn hlt
      exact .inr ⟨m, hm, by rw [edges, hc.node hm]; rfl⟩
    · exact .inl (by rw [edges, node_of_le hge]; rfl)
  refine ⟨hc.grown, fun hn => ?_, fun hn he => ?_⟩
  · rcases hedges hn with hnil | ⟨m, -, heq⟩
    · rw [hnil]
      exact Edges.sorted_nil
    · rw [heq]
      exact Edges.sorted_mapTargets (hs.sorted m) κ
  · rcases hedges hn with hnil | ⟨m, hm, heq⟩
    · rw [hnil] at he
      cases he
    · rw [heq] at he
      obtain ⟨d, hd, -, htarget⟩ := Edges.mem_mapTargets.1 he
      have hreach := hm.value (hs.value_eq_some_iff.2 hd)
      exact htarget ▸ ⟨hc.le_copy hreach, hc.copy_lt hreach⟩

theorem slots_copy (hg : 0 < g.generation) {n : NodeId} (hn : source.shape.Reach root n) :
    g'.slots (κ n) = .unset g.generation (source.type n) := by
  rw [slots, hc.node hn, hc.generation_eq]
  exact if_neg (Nat.ne_of_lt hg)

theorem pending_eq (m : Nat) : g'.pending m = g.pending m := hc.grown.pending_eq m

theorem currentType_eq {m : Nat} (hm : m < g.size) : g'.currentType m = g.currentType m :=
  hc.grown.currentType_eq hm

theorem currentType_copy (hg : 0 < g.generation) {n : NodeId} (hn : source.shape.Reach root n) :
    g'.currentType (κ n) = source.type n := by
  rw [currentType, hc.slots_copy hg hn]
  rfl

theorem currentEdge?_eq {m : Nat} (hm : m < g.size) (f : FeatureId) :
    g'.currentEdge? m f = g.currentEdge? m f :=
  currentEdge?_congr (hc.graph_extends.value_eq hm f) (hc.pending_eq m)

theorem currentEdge?_copy (hg : 0 < g.generation) {n : NodeId} (hn : source.shape.Reach root n)
    (f : FeatureId) : g'.currentEdge? (κ n) f = (source.value? n f).map κ := by
  have hp : g'.pending (κ n) = [] := by
    rw [pending, hc.slots_copy hg hn]
    rfl
  rw [currentEdge?, hp, Edges.target?_nil, hc.value?_copy hn]
  cases (source.value? n f).map κ <;> rfl

theorem entangled (hg : g.Entangled) (hs : source.Sound) : g'.Entangled := hg.added (hc.added hs)

theorem deref_eq (hg : g.Entangled) (hs : source.Sound) (n : NodeId) : g'.deref n = g.deref n :=
  (hc.entangled hg hs).deref_eq
    ((ends_congr hc.grown.forward?_eq).2 (hg.ends_deref n))

end

end CopyOf

end Graph

end FeatureLogic
