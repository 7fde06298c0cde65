import FeatureLogic.Proofs.Graph.Entangled

/-!
Graphs that are alike. A correspondence pairs nodes of one graph with nodes of another; the graphs
are alike under it (`Graph.Alike`) when it pairs each node at most once, and nodes that correspond
have the same types, marks and counts, and edges and pointers to nodes that correspond. Whatever is
read of such nodes corresponds, and graphs stay alike when the same is noted on both sides.
-/

open Relation

namespace FeatureLogic

/-- Which nodes of one graph stand for which of another. -/
abbrev Correspondence := NodeId → NodeId → Prop

/-- The copies of each node of a structure come to correspond, too. -/
def Correspondence.withCopies (ρ : Correspondence) (source : Graph) (root : NodeId)
    (κ κ' : NodeId → NodeId) : Correspondence :=
  fun i j => ρ i j ∨ ∃ n, source.shape.Reach root n ∧ κ n = i ∧ κ' n = j

namespace Edges

variable {ρ ρ' : Correspondence} {first second first' second' : List Edge}

/-- Edges for the same features to nodes that correspond. -/
abbrev Alike (ρ : Correspondence) : List Edge → List Edge → Prop :=
  List.Forall₂ fun d e => d.feature = e.feature ∧ ρ d.target e.target

theorem Alike.mono (hρ : ρ ≤ ρ') (h : Alike ρ first second) : Alike ρ' first second :=
  h.imp fun _ _ hde => ⟨hde.1, hρ _ _ hde.2⟩

theorem Alike.features_eq (h : Alike ρ first second) :
    first.map Edge.feature = second.map Edge.feature := by
  induction h with
  | nil => rfl
  | cons hde _ ih => rw [List.map_cons, List.map_cons, hde.1, ih]

theorem Alike.isEmpty_eq (h : Alike ρ first second) : first.isEmpty = second.isEmpty := by
  cases h <;> rfl

theorem Alike.target? (h : Alike ρ first second) (f : FeatureId) :
    Option.Rel ρ (Edges.target? f first) (Edges.target? f second) := by
  induction h with
  | nil => exact .none
  | @cons d e _ _ hde _ ih =>
    rw [target?_cons, target?_cons, hde.1]
    split
    · exact .some hde.2
    · exact ih

theorem Alike.put (h : Alike ρ first second) (feature : FeatureId) {n m : NodeId} (hn : ρ n m) :
    Alike ρ (Edges.put feature n first) (Edges.put feature m second) := by
  induction h with
  | nil => exact .cons ⟨rfl, hn⟩ .nil
  | @cons d e _ _ hde hrest ih =>
    simp only [Edges.put, hde.1]
    split
    · exact .cons ⟨rfl, hn⟩ (.cons hde hrest)
    · split
      · exact .cons ⟨rfl, hn⟩ hrest
      · exact .cons hde ih

theorem Alike.merge (h : Alike ρ first second) (h' : Alike ρ first' second') :
    Alike ρ (Edges.merge first first') (Edges.merge second second') := by
  unfold Edges.merge
  induction h generalizing first' second' with
  | nil => simpa using h'
  | @cons d e rest rest' hde hrest ih =>
    induction h' with
    | nil =>
      rw [List.merge_right, List.merge_right]
      exact .cons hde hrest
    | @cons d' e' rest₁ rest₁' hde' hrest' ih' =>
      rw [List.cons_merge_cons, List.cons_merge_cons, hde.1, hde'.1]
      split
      · exact .cons hde (ih (.cons hde' hrest'))
      · exact .cons hde' ih'

/-- Edges whose targets are moved to nodes that correspond. -/
theorem alike_mapTargets {k k' : NodeId → NodeId} {edges : List Edge}
    (h : ∀ e ∈ edges, ρ (k e.target) (k' e.target)) :
    Alike ρ (mapTargets k edges) (mapTargets k' edges) := by
  unfold Alike mapTargets
  rw [List.forall₂_map_left_iff, List.forall₂_map_right_iff, List.forall₂_same]
  exact fun e he => ⟨rfl, h e he⟩

theorem Alike.mapTargets {k k' : NodeId → NodeId} (h : Alike ρ first second)
    (hk : ∀ {n m}, ρ n m → ρ' (k n) (k' m)) :
    Alike ρ' (Edges.mapTargets k first) (Edges.mapTargets k' second) := by
  unfold Alike Edges.mapTargets
  rw [List.forall₂_map_left_iff, List.forall₂_map_right_iff]
  exact h.imp fun _ _ hde => ⟨hde.1, hk hde.2⟩

/-- The edges of a node to which the correspondence is a map. -/
theorem Alike.eq_mapTargets {μ : NodeId → NodeId} (h : Alike ρ first second)
    (hμ : ∀ e ∈ first, ∀ {m}, ρ e.target m → μ e.target = m) :
    second = Edges.mapTargets μ first := by
  induction h with
  | nil => rfl
  | @cons d e _ _ hde _ ih =>
    obtain ⟨feature, target⟩ := e
    obtain ⟨rfl, htarget⟩ := hde
    have hrest := ih fun d' hd' => hμ d' (List.mem_cons_of_mem _ hd')
    have htarget : μ d.target = target := hμ d (List.mem_cons_self ..) htarget
    rw [hrest, ← htarget]
    rfl

theorem Alike.exists_of_mem (h : Alike ρ first second) {e : Edge} (he : e ∈ first) :
    ∃ m, ρ e.target m := by
  induction h with
  | nil => cases he
  | cons hde _ ih =>
    rcases List.mem_cons.1 he with rfl | he
    · exact ⟨_, hde.2⟩
    · exact ih he

end Edges

/-- The same marks, of copies that correspond. -/
inductive CopyMark.Alike (ρ : Correspondence) : CopyMark → CopyMark → Prop
  | blank : Alike ρ .blank .blank
  | underway : Alike ρ .underway .underway
  | copied {n m : NodeId} (h : ρ n m) : Alike ρ (.copied n) (.copied m)

theorem CopyMark.Alike.mono {ρ ρ' : Correspondence} (hρ : ρ ≤ ρ') {mark mark' : CopyMark}
    (h : CopyMark.Alike ρ mark mark') : CopyMark.Alike ρ' mark mark' := by
  cases h with
  | blank => exact .blank
  | underway => exact .underway
  | copied h => exact .copied (hρ _ _ h)

/-- Notes that read the same but for the numbers of nodes. -/
structure Slots.Alike (ρ : Correspondence) (s t : Slots) : Prop where
  type_eq : s.type = t.type
  forward : Option.Rel ρ s.forward t.forward
  copy : CopyMark.Alike ρ s.copy t.copy
  visits_eq : s.visits = t.visits
  pending : Edges.Alike ρ s.pending t.pending

theorem Slots.Alike.mono {ρ ρ' : Correspondence} (hρ : ρ ≤ ρ') {s t : Slots} (h : s.Alike ρ t) :
    Slots.Alike ρ' s t where
  type_eq := h.type_eq
  forward := by
    have hforward := h.forward
    generalize s.forward = next, t.forward = next' at hforward
    cases hforward with
    | none => exact .none
    | some hn => exact .some (hρ _ _ hn)
  copy := h.copy.mono hρ
  visits_eq := h.visits_eq
  pending := h.pending.mono hρ

theorem Slots.alike_unset {ρ : Correspondence} {stamp stamp' : Nat} {type type' : TypeId}
    (h : type = type') : Slots.Alike ρ (.unset stamp type) (.unset stamp' type') :=
  ⟨h, .none, .blank, rfl, .nil⟩

namespace Graph

/-- Nodes of the first graph that correspond to nodes of the second, each to one, differ from them
in the numbers of nodes only, in what is committed and in what is noted. -/
structure Alike (ρ : Correspondence) (g k : Graph) : Prop where
  lt : ∀ {n m : Nat}, ρ n m → n < g.size ∧ m < k.size
  eq_iff : ∀ {n m n' m'}, ρ n m → ρ n' m' → (n = n' ↔ m = m')
  type_eq : ∀ {n m}, ρ n m → g.type n = k.type m
  edges : ∀ {n m}, ρ n m → Edges.Alike ρ (g.edges n) (k.edges m)
  slots : ∀ {n m}, ρ n m → Slots.Alike ρ (g.slots n) (k.slots m)

namespace Alike

variable {ρ : Correspondence} {g k : Graph} (h : Alike ρ g k) {n m : Nat}
include h

/-! ## What is read -/

section Reads

variable (hn : ρ n m)
include hn

theorem forward? : Option.Rel ρ (g.forward? n) (k.forward? m) := (h.slots hn).forward

theorem currentType_eq : g.currentType n = k.currentType m := (h.slots hn).type_eq

theorem copyMark : CopyMark.Alike ρ (g.copyMark n) (k.copyMark m) := (h.slots hn).copy

theorem visits_eq : g.visits n = k.visits m := (h.slots hn).visits_eq

theorem pending : Edges.Alike ρ (g.pending n) (k.pending m) := (h.slots hn).pending

theorem currentEdges : Edges.Alike ρ (g.currentEdges n) (k.currentEdges m) := by
  have hpending := h.pending hn
  have hedges := h.edges hn
  unfold Graph.currentEdges
  generalize g.pending n = gained, k.pending m = gained' at hpending
  cases hpending with
  | nil => exact hedges
  | cons hde hrest => exact hedges.merge (.cons hde hrest)

theorem hasCurrentEdges_eq : g.hasCurrentEdges n = k.hasCurrentEdges m := by
  rw [hasCurrentEdges, hasCurrentEdges, (h.edges hn).isEmpty_eq, (h.pending hn).isEmpty_eq]

theorem currentEdge? (f : FeatureId) :
    Option.Rel ρ (g.currentEdge? n f) (k.currentEdge? m f) := by
  have hvalue : Option.Rel ρ (g.value? n f) (k.value? m f) := (h.edges hn).target? f
  unfold Graph.currentEdge?
  generalize g.value? n f = value, k.value? m f = value' at hvalue
  cases hvalue with
  | none => exact (h.pending hn).target? f
  | some hvalue => exact .some hvalue

/-- Chains of pointers end at nodes that correspond. -/
theorem ends {r : NodeId} (hr : g.Ends n r) : ∃ r', ρ r r' ∧ k.Ends m r' := by
  obtain ⟨hpath, hlast⟩ := hr
  have hchain : ∃ r', ρ r r' ∧ ReflTransGen (fun n m => k.forward? n = some m) m r' := by
    clear hlast
    induction hpath with
    | refl => exact ⟨m, hn, .refl⟩
    | tail _ hf ih =>
      obtain ⟨r', hr', hpath'⟩ := ih
      have hforward := h.forward? hr'
      rw [hf] at hforward
      generalize heq : k.forward? r' = next at hforward
      cases hforward with
      | some hnext => exact ⟨_, hnext, hpath'.tail heq⟩
  obtain ⟨r', hr', hpath'⟩ := hchain
  have hforward := h.forward? hr'
  rw [hlast] at hforward
  generalize heq : k.forward? r' = next at hforward
  cases hforward with
  | none => exact ⟨r', hr', hpath', heq⟩

theorem deref (hg : g.Linked) (hk : k.Linked) : ρ (g.deref n) (k.deref m) := by
  obtain ⟨r, hr, hends⟩ := h.ends hn (hg.ends_deref n)
  rwa [hk.deref_eq hends]

end Reads

/-- Answers about pointers are equal on both sides or on none. -/
theorem option_eq_iff {p q p' q' : Option NodeId} (hp : Option.Rel ρ p p')
    (hq : Option.Rel ρ q q') : p = q ↔ p' = q' := by
  cases hp with
  | none => cases hq <;> simp
  | some hp =>
    cases hq with
    | none => simp
    | some hq => simpa using h.eq_iff hp hq

/-! ## What is noted -/

section Notes

variable (hn : ρ n m)
include hn

/-- The same is noted of nodes that correspond. -/
theorem note {f f' : Slots → Slots} (hf : ∀ s, (f s).stamp = s.stamp)
    (hf' : ∀ s, (f' s).stamp = s.stamp)
    (halike : ∀ {s t}, Slots.Alike ρ s t → Slots.Alike ρ (f s) (f' t)) :
    Alike ρ (g.note n f) (k.note m f') where
  lt hi := by
    rw [size_note, size_note]
    exact h.lt hi
  eq_iff := h.eq_iff
  type_eq hi := by
    rw [type_note, type_note]
    exact h.type_eq hi
  edges hi := by
    rw [edges_note, edges_note]
    exact h.edges hi
  slots hi := by
    rw [slots_note_of_lt (h.lt hn).1 hf, slots_note_of_lt (h.lt hn).2 hf']
    simp only [h.eq_iff hn hi]
    split
    · exact halike (h.slots hi)
    · exact h.slots hi

theorem setForward {n' m' : NodeId} (hn' : ρ n' m') :
    Alike ρ (g.setForward n n') (k.setForward m m') :=
  h.note hn (by intro _; rfl) (by intro _; rfl)
    fun hs => ⟨hs.type_eq, .some hn', hs.copy, hs.visits_eq, hs.pending⟩

theorem setCurrentType (type : TypeId) :
    Alike ρ (g.setCurrentType n type) (k.setCurrentType m type) :=
  h.note hn (by intro _; rfl) (by intro _; rfl)
    fun hs => ⟨rfl, hs.forward, hs.copy, hs.visits_eq, hs.pending⟩

theorem setCopyMark {mark mark' : CopyMark} (hmark : CopyMark.Alike ρ mark mark') :
    Alike ρ (g.setCopyMark n mark) (k.setCopyMark m mark') :=
  h.note hn (by intro _; rfl) (by intro _; rfl)
    fun hs => ⟨hs.type_eq, hs.forward, hmark, hs.visits_eq, hs.pending⟩

theorem setVisits (visits : Nat) : Alike ρ (g.setVisits n visits) (k.setVisits m visits) :=
  h.note hn (by intro _; rfl) (by intro _; rfl)
    fun hs => ⟨hs.type_eq, hs.forward, hs.copy, rfl, hs.pending⟩

theorem addPending {d e : Edge} (hfeature : d.feature = e.feature) (htarget : ρ d.target e.target) :
    Alike ρ (g.addPending n d) (k.addPending m e) :=
  h.note hn (by intro _; rfl) (by intro _; rfl) fun hs =>
    ⟨hs.type_eq, hs.forward, hs.copy, hs.visits_eq, hfeature ▸ hs.pending.put _ htarget⟩

end Notes

/-- Graphs stay alike when a note on one side changes nothing that corresponds. -/
theorem note_right {f : Slots → Slots} (hf : ∀ s, (f s).stamp = s.stamp)
    (hsame : ∀ {n}, ρ n m → f (k.slots m) = k.slots m) : Alike ρ g (k.note m f) where
  lt hi := by
    rw [size_note]
    exact h.lt hi
  eq_iff := h.eq_iff
  type_eq hi := by
    rw [type_note]
    exact h.type_eq hi
  edges hi := by
    rw [edges_note]
    exact h.edges hi
  slots hi := by
    rw [slots_note _ _ _ _ hf]
    split
    · rename_i heq
      obtain ⟨rfl, -⟩ := heq
      rw [hsame hi]
      exact h.slots hi
    · exact h.slots hi

/-- A node that stands for nothing may be absorbed. -/
theorem setForward_right (hm : ∀ n, ¬ ρ n m) (target : NodeId) :
    Alike ρ g (k.setForward m target) :=
  h.note_right (by intro _; rfl) fun hn => absurd hn (hm _)

/-- A node may get the type that it has. -/
theorem setCurrentType_right : Alike ρ g (k.setCurrentType m (k.currentType m)) :=
  h.note_right (by intro _; rfl) fun _ => rfl

/-! ## What is copied in -/

/-- Copies of one structure of another graph come to correspond. -/
theorem copyOf (hg : 0 < g.generation) (hk : 0 < k.generation) {source g' k' : Graph}
    (hs : source.Sound) {root : NodeId} {κ κ' : NodeId → NodeId}
    (hc : g.CopyOf source root g' κ) (hc' : k.CopyOf source root k' κ') :
    Alike (ρ.withCopies source root κ κ') g' k' where
  lt := by
    rintro i j (hi | ⟨n, hn, rfl, rfl⟩)
    · exact ⟨Nat.lt_of_lt_of_le (h.lt hi).1 hc.size_le, Nat.lt_of_lt_of_le (h.lt hi).2 hc'.size_le⟩
    · exact ⟨hc.copy_lt hn, hc'.copy_lt hn⟩
  eq_iff := by
    -- old nodes and copies differ on both sides
    have hapart : ∀ {i j n}, ρ i j → source.shape.Reach root n → i ≠ κ n ∧ j ≠ κ' n := by
      intro i j n hi hn
      exact ⟨Nat.ne_of_lt (Nat.lt_of_lt_of_le (h.lt hi).1 (hc.le_copy hn)),
        Nat.ne_of_lt (Nat.lt_of_lt_of_le (h.lt hi).2 (hc'.le_copy hn))⟩
    rintro i j i' j' (hi | ⟨n, hn, rfl, rfl⟩) (hi' | ⟨n', hn', rfl, rfl⟩)
    · exact h.eq_iff hi hi'
    · exact iff_of_false (hapart hi hn').1 (hapart hi hn').2
    · exact iff_of_false (hapart hi' hn).1.symm (hapart hi' hn).2.symm
    · exact ⟨fun heq => congrArg κ' (hc.inj hn hn' heq), fun heq => congrArg κ (hc'.inj hn hn' heq)⟩
  type_eq := by
    rintro i j (hi | ⟨n, hn, rfl, rfl⟩)
    · rw [hc.graph_extends.type_eq (h.lt hi).1, hc'.graph_extends.type_eq (h.lt hi).2]
      exact h.type_eq hi
    · rw [hc.type_copy hn, hc'.type_copy hn]
  edges := by
    rintro i j (hi | ⟨n, hn, rfl, rfl⟩)
    · rw [hc.graph_extends.edges_eq (h.lt hi).1, hc'.graph_extends.edges_eq (h.lt hi).2]
      exact (h.edges hi).mono fun _ _ => .inl
    · rw [Graph.edges, Graph.edges, hc.node hn, hc'.node hn]
      exact Edges.alike_mapTargets fun e he =>
        .inr ⟨e.target, hn.value (hs.value_eq_some_iff.2 he), rfl, rfl⟩
  slots := by
    rintro i j (hi | ⟨n, hn, rfl, rfl⟩)
    · have hold : g'.slots i = g.slots i := by
        rw [Graph.slots, hc.old (h.lt hi).1, hc.generation_eq, Graph.slots]
      have hold' : k'.slots j = k.slots j := by
        rw [Graph.slots, hc'.old (h.lt hi).2, hc'.generation_eq, Graph.slots]
      rw [hold, hold']
      exact (h.slots hi).mono fun _ _ => .inl
    · rw [hc.slots_copy hg hn, hc'.slots_copy hk hn]
      exact Slots.alike_unset rfl

end Alike

end Graph

/-! ## Layouts -/

/-- Layouts whose nodes correspond, each to one, are isomorphic. -/
theorem Layout.isomorphic_of_alike {L M : Layout} {ρ : Correspondence} {x y : NodeId} (hx : ρ x y)
    (heq : ∀ {n m n' m'}, ρ n m → ρ n' m' → (n = n' ↔ m = m'))
    (hρ : ∀ {n m}, ρ n m → L.type n = M.type m ∧ Edges.Alike ρ (L.edges n) (M.edges m)) :
    L.Isomorphic x M y := by
  have hreach : ∀ n, L.Reach x n → ∃ m, ρ n m := by
    intro n hn
    induction hn with
    | refl => exact ⟨y, hx⟩
    | tail _ hstep ih =>
      obtain ⟨m, hm⟩ := ih
      obtain ⟨e, he, rfl⟩ := hstep
      exact (hρ hm).2.exists_of_mem he
  choose! μ hμ using hreach
  have hself : ∀ {n m}, L.Reach x n → ρ n m → μ n = m :=
    fun hn hm => (heq (hμ _ hn) hm).1 rfl
  refine ⟨μ, hself .refl hx, fun n hn m hm hnm => (heq (hμ n hn) (hμ m hm)).2 hnm,
    fun n hn => ⟨(hρ (hμ n hn)).1.symm, ?_⟩⟩
  exact (hρ (hμ n hn)).2.eq_mapTargets fun e he => hself (hn.edge he)

/-- Structures of episodes that are alike are isomorphic. -/
theorem Graph.Alike.isomorphic_view {ρ : Correspondence} {g k : Graph} (h : g.Alike ρ k)
    (hg : g.Linked) (hk : k.Linked) {x y : NodeId} (hx : ρ x y) :
    g.view.Isomorphic (g.deref x) k.view (k.deref y) := by
  exact Layout.isomorphic_of_alike (h.deref hx hg hk) h.eq_iff fun hn =>
    ⟨h.currentType_eq hn, (h.currentEdges hn).mapTargets fun hm => h.deref hm hg hk⟩

/-- The layouts below two nodes differ from those below two other nodes, taken together, in the
numbers of their nodes only. -/
def Layout.JointlyIsomorphic (L : Layout) (x y : NodeId) (M : Layout) (x' y' : NodeId) : Prop :=
  ∃ μ : NodeId → NodeId, μ x = x' ∧ μ y = y' ∧ Set.InjOn μ {n | L.Reach x n ∨ L.Reach y n} ∧
    ∀ n, L.Reach x n ∨ L.Reach y n →
      M.type (μ n) = L.type n ∧ M.edges (μ n) = Edges.mapTargets μ (L.edges n)

/-- It is enough to look at the nodes of a list that has whatever its nodes lead to. -/
theorem Layout.jointlyIsomorphic_of_below {L M : Layout} {x y : NodeId} (below : List NodeId)
    (μ : NodeId → NodeId) (hx : x ∈ below) (hy : y ∈ below)
    (hclosed : ∀ n ∈ below, ∀ e ∈ L.edges n, e.target ∈ below)
    (hinj : ∀ n ∈ below, ∀ m ∈ below, μ n = μ m → n = m)
    (hμ : ∀ n ∈ below, M.type (μ n) = L.type n ∧ M.edges (μ n) = Edges.mapTargets μ (L.edges n)) :
    L.JointlyIsomorphic x y M (μ x) (μ y) := by
  have hmem : ∀ {n}, L.Reach x n ∨ L.Reach y n → n ∈ below :=
    fun hn => hn.elim (mem_of_reach hx hclosed) (mem_of_reach hy hclosed)
  exact ⟨μ, rfl, rfl, fun n hn m hm => hinj n (hmem hn) m (hmem hm), fun n hn => hμ n (hmem hn)⟩

/-- When no episode is open, structures that are isomorphic together are alike. -/
theorem Graph.exists_alike {g k : Graph} (hg : g.EdgesLead) (hk : k.EdgesLead) (hr : g.AtRest)
    (hr' : k.AtRest) {a b a' b' : Nat} (ha : a < g.size) (hb : b < g.size) (ha' : a' < k.size)
    (hb' : b' < k.size) (h : g.layout.JointlyIsomorphic a b k.layout a' b') :
    ∃ ρ : Correspondence, ρ a a' ∧ ρ b b' ∧ g.Alike ρ k := by
  obtain ⟨μ, rfl, rfl, hinj, hμ⟩ := h
  have hstep : ∀ {n}, g.layout.Reach a n ∨ g.layout.Reach b n → ∀ e ∈ g.edges n,
      g.layout.Reach a e.target ∨ g.layout.Reach b e.target :=
    fun hn e he => hn.imp (fun hn => hn.edge he) fun hn => hn.edge he
  have hlt : ∀ {n : Nat}, g.layout.Reach a n ∨ g.layout.Reach b n → n < g.size :=
    fun hn => hn.elim (Below.lt hg ha) (Below.lt hg hb)
  have hlt' : ∀ {n : Nat}, g.layout.Reach a n ∨ g.layout.Reach b n → μ n < k.size := by
    rintro n (hn | hn)
    · exact Below.lt hk ha' (Layout.reach_of_edges (fun n hn => (hμ n (.inl hn)).2) hn)
    · exact Below.lt hk hb' (Layout.reach_of_edges (fun n hn => (hμ n (.inr hn)).2) hn)
  -- nodes correspond to their images; with no episode open all slots are unset
  refine ⟨fun n m => (g.layout.Reach a n ∨ g.layout.Reach b n) ∧ μ n = m,
    ⟨.inl .refl, rfl⟩, ⟨.inr .refl, rfl⟩, ?_, ?_, ?_, ?_, ?_⟩
  · rintro n m ⟨hn, rfl⟩
    exact ⟨hlt hn, hlt' hn⟩
  · rintro n _ n' _ ⟨hn, rfl⟩ ⟨hn', rfl⟩
    exact (hinj.eq_iff hn hn').symm
  · rintro n _ ⟨hn, rfl⟩
    exact (hμ n hn).1.symm
  · rintro n _ ⟨hn, rfl⟩
    have hedges : k.edges (μ n) = Edges.mapTargets μ (g.edges n) := (hμ n hn).2
    have halike : Edges.Alike (fun n m => (g.layout.Reach a n ∨ g.layout.Reach b n) ∧ μ n = m)
        (Edges.mapTargets id (g.edges n)) (Edges.mapTargets μ (g.edges n)) :=
      Edges.alike_mapTargets fun e he => ⟨hstep hn e he, rfl⟩
    rwa [Edges.mapTargets_id fun _ _ => rfl, ← hedges] at halike
  · rintro n _ ⟨hn, rfl⟩
    rw [hr.slots_eq, hr'.slots_eq]
    exact Slots.alike_unset (hμ n hn).1.symm

end FeatureLogic
