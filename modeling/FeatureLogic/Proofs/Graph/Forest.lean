import FeatureLogic.Proofs.Graph.Linked

/-!
Pointers as a forest. Where every chain of pointers ends, none comes back to a node that it has
left, and pointers can be followed one by one without a bound: they lead to the node that `deref`
gives (`Graph.Forest`). Other notes and new nodes leave the pointers as they are
(`Graph.SamePointers`). A pointer from one node that stands for itself to another puts nodes
together and takes none apart (`Graph.Gathers`).
-/

open Relation

namespace FeatureLogic.Graph

/-! ## Chains -/

/-- After a pointer there are fewer to follow. -/
theorem EndsIn.of_transGen {g : Graph} {k : Nat} {n m r : NodeId} (h : g.EndsIn k n r)
    (hpath : TransGen (fun n m => g.forward? n = some m) n m) : ∃ k' < k, g.EndsIn k' m r := by
  have hstep : ∀ {k : Nat} {n m : NodeId}, g.EndsIn k n r → g.forward? n = some m →
      ∃ k' < k, g.EndsIn k' m r := by
    intro k n m h hf
    cases h with
    | zero hn =>
      rw [hn] at hf
      cases hf
    | @succ k _ _ _ hf' h =>
      rw [hf] at hf'
      cases hf'
      exact ⟨k, Nat.lt_succ_self k, h⟩
  induction hpath with
  | single hf => exact hstep h hf
  | tail _ hf ih =>
    obtain ⟨k₁, hlt₁, h₁⟩ := ih
    obtain ⟨k₂, hlt₂, h₂⟩ := hstep h₁ hf
    exact ⟨k₂, Nat.lt_trans hlt₂ hlt₁, h₂⟩

/-- The pointers of the episode form a forest on the nodes of the graph. -/
structure Forest (g : Graph) : Prop where
  pointer_lt : ∀ {n m : Nat}, g.forward? n = some m → n < g.size ∧ m < g.size
  /-- No chain comes back to where it began, be it after one pointer or after many. -/
  acyclic : ∀ n, ¬ TransGen (fun n m => g.forward? n = some m) n n
  /-- Following pointers for as long as there are any comes to an end. -/
  terminates : ∀ n, ∃ k ≤ g.size, g.EndsIn k n (g.deref n)
  forward_deref : ∀ n, g.forward? (g.deref n) = none
  deref_deref : ∀ n, g.deref (g.deref n) = g.deref n

theorem forest_of_ends {g : Graph} (hg : 0 < g.generation)
    (hlt : ∀ {n m : Nat}, g.forward? n = some m → m < g.size) (h : ∀ n, ∃ r, g.Ends n r) :
    g.Forest := by
  have hends : ∀ n, g.Ends n (g.deref n) := fun n => by
    obtain ⟨r, hr⟩ := h n
    rwa [deref_of_ends hg hr]
  refine ⟨fun hf => ⟨forward?_lt hg hf, hlt hf⟩, fun n hloop => ?_, fun n => ?_,
    fun n => (hends n).2, fun n => deref_of_ends hg (ends_self (hends n).2)⟩
  · obtain ⟨k, hk⟩ := (hends n).endsIn
    obtain ⟨k', hlt, hk'⟩ := hk.of_transGen hloop
    exact Nat.ne_of_lt hlt (hk'.unique hk).1
  · obtain ⟨k, hk⟩ := (hends n).endsIn
    exact ⟨k, hk.le_size hg, hk⟩

theorem Linked.forest {g : Graph} (h : g.Linked) : g.Forest :=
  forest_of_ends h.stamped.generation_pos (fun hf => h.link_lt (.forward hf)) h.ends

/-! ## The same pointers -/

/-- The second graph comes later in the same episode and has the pointers of the first. -/
structure SamePointers (g g' : Graph) : Prop where
  generation_eq : g'.generation = g.generation
  size_le : g.size ≤ g'.size
  forward?_eq : ∀ n, g'.forward? n = g.forward? n

namespace SamePointers

theorem refl (g : Graph) : g.SamePointers g := ⟨rfl, Nat.le_refl _, fun _ => rfl⟩

/-- A change of what is committed, or new nodes. -/
theorem of_slots_eq {g g' : Graph} (hgeneration : g'.generation = g.generation)
    (hsize : g.size ≤ g'.size) (hslots : ∀ n : Nat, (g'.node n).slots = (g.node n).slots) :
    g.SamePointers g' :=
  ⟨hgeneration, hsize, fun n => (reads_congr hgeneration (hslots n)).1⟩

variable {g g' : Graph} (h : g.SamePointers g')
include h

theorem trans {g'' : Graph} (h' : g'.SamePointers g'') : g.SamePointers g'' where
  generation_eq := h'.generation_eq.trans h.generation_eq
  size_le := Nat.le_trans h.size_le h'.size_le
  forward?_eq n := (h'.forward?_eq n).trans (h.forward?_eq n)

/-- A note other than a pointer. -/
theorem note (n : NodeId) {f : Slots → Slots} (hstamp : ∀ s, (f s).stamp = s.stamp)
    (hforward : ∀ s, (f s).forward = s.forward) : g.SamePointers (g'.note n f) where
  generation_eq := h.generation_eq
  size_le := Nat.le_trans h.size_le (Nat.le_of_eq (size_note ..).symm)
  forward?_eq m := (read_note Slots.forward hstamp hforward m).trans (h.forward?_eq m)

theorem setCurrentType (n : NodeId) (type : TypeId) : g.SamePointers (g'.setCurrentType n type) :=
  h.note n (by intro _; rfl) (by intro _; rfl)

theorem addPending (n : NodeId) (e : Edge) : g.SamePointers (g'.addPending n e) :=
  h.note n (by intro _; rfl) (by intro _; rfl)

theorem setCopyMark (n : NodeId) (mark : CopyMark) : g.SamePointers (g'.setCopyMark n mark) :=
  h.note n (by intro _; rfl) (by intro _; rfl)

theorem setVisits (n : NodeId) (visits : Nat) : g.SamePointers (g'.setVisits n visits) :=
  h.note n (by intro _; rfl) (by intro _; rfl)

/-- A change of the committed part of a node. -/
theorem modify (n : NodeId) {f : Node → Node} (hslots : ∀ node, (f node).slots = node.slots) :
    g.SamePointers ({ g' with nodes := g'.nodes.modify n f } : Graph) := by
  refine h.trans (of_slots_eq rfl (Nat.le_of_eq (by simp [size])) fun m => ?_)
  rw [node_modify]
  split
  · exact hslots _
  · rfl

theorem add (hg : 0 < g.generation) (type : TypeId) (edges : List Edge) :
    g.SamePointers (g'.add type edges) where
  generation_eq := h.generation_eq
  size_le := by
    rw [size_add]
    exact Nat.le_succ_of_le h.size_le
  forward?_eq m := (forward?_add (h.generation_eq ▸ hg) type edges m).trans (h.forward?_eq m)

theorem forest (hg : g.Linked) : g'.Forest := by
  refine forest_of_ends (h.generation_eq ▸ hg.stamped.generation_pos) (fun {n m} hf => ?_)
    fun n => ⟨_, (ends_congr h.forward?_eq).2 (hg.ends_deref n)⟩
  rw [h.forward?_eq] at hf
  exact Nat.lt_of_lt_of_le (hg.link_lt (.forward hf)) h.size_le

theorem deref_eq (hg : g.Linked) (n : NodeId) : g'.deref n = g.deref n :=
  deref_of_ends (h.generation_eq ▸ hg.stamped.generation_pos)
    ((ends_congr h.forward?_eq).2 (hg.ends_deref n))

end SamePointers

theorem Grown.samePointers {g g' : Graph} (h : g.Grown g') : g.SamePointers g' :=
  .of_slots_eq h.generation_eq h.size_le h.slots_eq

/-- To copy committed structure notes no pointers. -/
theorem samePointers_copyWalk {g : Graph} (hg : 0 < g.generation) (source : Graph → Graph)
    (rounds : Nat) (root : NodeId) : g.SamePointers (Copying.walk source rounds g root) := by
  rw [Copying.walk, Agenda.runRounds_eq_run]
  refine Agenda.state_run (P := fun c : Copying => g.SamePointers c.graph) (fun {c} task hc => ?_)
    _ _ (.refl g)
  cases task with
  | enter n =>
    simp only [Copying.turn]
    split
    · exact hc
    · exact hc.add hg ..
  | connect copy edges => exact hc.modify copy fun _ => rfl

/-! ## Nodes that are put together -/

/-- Of the first `size` nodes, those with one representative have one in the second graph, too. -/
def Gathers (size : Nat) (g g' : Graph) : Prop :=
  ∀ ⦃n m : Nat⦄, n < size → m < size → g.deref n = g.deref m → g'.deref n = g'.deref m

namespace Gathers

variable {size : Nat} {g g' g'' : Graph}

theorem refl (size : Nat) (g : Graph) : Gathers size g g := fun _ _ _ _ h => h

theorem trans (h : Gathers size g g') (h' : Gathers size g' g'') : Gathers size g g'' :=
  fun _ _ hn hm heq => h' hn hm (h hn hm heq)

theorem mono (h : Gathers size g g') {size' : Nat} (hle : size' ≤ size) : Gathers size' g g' :=
  fun _ _ hn hm => h (Nat.lt_of_lt_of_le hn hle) (Nat.lt_of_lt_of_le hm hle)

theorem of_deref_eq (h : ∀ n < size, g'.deref n = g.deref n) : Gathers size g g' := by
  intro n m hn hm heq
  rw [h n hn, h m hm, heq]

/-- Nodes that stand for themselves are put together with themselves only. -/
theorem of_atRest (h : g.AtRest) : Gathers size g g' := by
  intro n m _ _ heq
  rw [h.deref_eq, h.deref_eq] at heq
  rw [heq]

end Gathers

theorem SamePointers.gathers {g g' : Graph} (h : g.SamePointers g') (hg : g.Linked) (size : Nat) :
    Gathers size g g' :=
  .of_deref_eq fun n _ => h.deref_eq hg n

/-- Nodes whose representative is absorbed share the one that absorbs it. -/
theorem Linked.gathers_setForward {g : Graph} (h : g.Linked) {loser winner : Nat}
    (hd : g.Distinct loser winner) (size : Nat) :
    Gathers size g (g.setForward loser winner) := by
  intro n m _ _ heq
  rw [h.deref_setForward hd, h.deref_setForward hd, heq]

/-- Nodes that stay keep their representatives when nodes are dropped. -/
theorem Linked.gathers_truncate {g : Graph} (h : g.Linked) {size : Nat}
    (hkeep : ∀ {n m : Nat}, g.Link n m → n < size → m < size) :
    Gathers size g (g.truncate size) :=
  .of_deref_eq fun n hn => deref_of_ends (h.stamped.truncate size).generation_pos
    ((h.ends_deref n).truncate (fun hf => hkeep (.forward hf)) hn)

end FeatureLogic.Graph
