import FeatureLogic.Proofs.Graph.Committed

/-!
Notes of an episode. Each operation changes the one note that it is named for, and `deref` gives
the end of a chain of pointers, which is no longer than the graph is large (`Graph.deref_of_ends`).
-/

open Relation

namespace FeatureLogic

namespace Graph

/-! ## One note at a time -/

section Notes

variable {g : Graph} {n : Nat} {f : Slots → Slots}

theorem slots_note_of_lt (hn : n < g.size) (hf : ∀ s, (f s).stamp = s.stamp) (m : Nat) :
    (g.note n f).slots m = if n = m then f (g.slots m) else g.slots m := by
  rw [slots_note _ _ _ _ hf]
  simp [hn]

/-- What a note does not touch can be read after it as before. -/
theorem read_note {α : Type} (read : Slots → α) (hf : ∀ s, (f s).stamp = s.stamp)
    (hread : ∀ s, read (f s) = read s) (m : Nat) :
    read ((g.note n f).slots m) = read (g.slots m) := by
  rw [slots_note _ _ _ _ hf]
  split
  · exact hread _
  · rfl

variable (g n) (m : Nat)

@[simp] theorem currentType_setForward (target : NodeId) :
    (g.setForward n target).currentType m = g.currentType m := by
  unfold currentType setForward
  exact read_note Slots.type (by intro _; rfl) (by intro _; rfl) m

@[simp] theorem pending_setForward (target : NodeId) :
    (g.setForward n target).pending m = g.pending m := by
  unfold pending setForward
  exact read_note Slots.pending (by intro _; rfl) (by intro _; rfl) m

@[simp] theorem copyMark_setForward (target : NodeId) :
    (g.setForward n target).copyMark m = g.copyMark m := by
  unfold copyMark setForward
  exact read_note Slots.copy (by intro _; rfl) (by intro _; rfl) m

@[simp] theorem forward?_setCurrentType (type : TypeId) :
    (g.setCurrentType n type).forward? m = g.forward? m := by
  unfold forward? setCurrentType
  exact read_note Slots.forward (by intro _; rfl) (by intro _; rfl) m

@[simp] theorem pending_setCurrentType (type : TypeId) :
    (g.setCurrentType n type).pending m = g.pending m := by
  unfold pending setCurrentType
  exact read_note Slots.pending (by intro _; rfl) (by intro _; rfl) m

@[simp] theorem copyMark_setCurrentType (type : TypeId) :
    (g.setCurrentType n type).copyMark m = g.copyMark m := by
  unfold copyMark setCurrentType
  exact read_note Slots.copy (by intro _; rfl) (by intro _; rfl) m

@[simp] theorem forward?_addPending (e : Edge) :
    (g.addPending n e).forward? m = g.forward? m := by
  unfold forward? addPending
  exact read_note Slots.forward (by intro _; rfl) (by intro _; rfl) m

@[simp] theorem currentType_addPending (e : Edge) :
    (g.addPending n e).currentType m = g.currentType m := by
  unfold currentType addPending
  exact read_note Slots.type (by intro _; rfl) (by intro _; rfl) m

@[simp] theorem copyMark_addPending (e : Edge) :
    (g.addPending n e).copyMark m = g.copyMark m := by
  unfold copyMark addPending
  exact read_note Slots.copy (by intro _; rfl) (by intro _; rfl) m

@[simp] theorem forward?_setCopyMark (mark : CopyMark) :
    (g.setCopyMark n mark).forward? m = g.forward? m := by
  unfold forward? setCopyMark
  exact read_note Slots.forward (by intro _; rfl) (by intro _; rfl) m

@[simp] theorem currentType_setCopyMark (mark : CopyMark) :
    (g.setCopyMark n mark).currentType m = g.currentType m := by
  unfold currentType setCopyMark
  exact read_note Slots.type (by intro _; rfl) (by intro _; rfl) m

@[simp] theorem pending_setCopyMark (mark : CopyMark) :
    (g.setCopyMark n mark).pending m = g.pending m := by
  unfold pending setCopyMark
  exact read_note Slots.pending (by intro _; rfl) (by intro _; rfl) m

variable {g n} (hn : n < g.size)
include hn

theorem forward?_setForward (target : NodeId) :
    (g.setForward n target).forward? m = if n = m then some target else g.forward? m := by
  rw [forward?, setForward, slots_note_of_lt hn]
  · split <;> rfl
  · intro _
    rfl

theorem currentType_setCurrentType (type : TypeId) :
    (g.setCurrentType n type).currentType m = if n = m then type else g.currentType m := by
  rw [currentType, setCurrentType, slots_note_of_lt hn]
  · split <;> rfl
  · intro _
    rfl

theorem pending_addPending (e : Edge) : (g.addPending n e).pending m =
    if n = m then Edges.put e.feature e.target (g.pending m) else g.pending m := by
  rw [pending, addPending, slots_note_of_lt hn]
  · split <;> rfl
  · intro _
    rfl

theorem copyMark_setCopyMark (mark : CopyMark) :
    (g.setCopyMark n mark).copyMark m = if n = m then mark else g.copyMark m := by
  rw [copyMark, setCopyMark, slots_note_of_lt hn]
  · split <;> rfl
  · intro _
    rfl

end Notes

theorem slots_add {g : Graph} (hg : 0 < g.generation) (type : TypeId) (edges : List Edge)
    (m : Nat) : (g.add type edges).slots m =
      if m = g.size then .unset g.generation type else g.slots m := by
  have hgen : (g.add type edges).generation = g.generation := rfl
  rw [slots, node_add, hgen]
  split
  · exact if_neg (Nat.ne_of_lt hg)
  · rfl

/-- Beyond the graph there are no notes. -/
theorem slots_of_le {g : Graph} (hg : 0 < g.generation) {n : Nat} (hn : g.size ≤ n) :
    g.slots n = .unset g.generation .top := by
  rw [slots, node_of_le hn]
  exact if_neg (Nat.ne_of_lt hg)

section Add

variable {g : Graph} (hg : 0 < g.generation) (type : TypeId) (edges : List Edge)
include hg

/-- A new node has no notes, as it had none before it was there. -/
theorem read_add {α : Type} (read : Slots → α)
    (hread : ∀ stamp t u, read (.unset stamp t) = read (.unset stamp u)) (m : Nat) :
    read ((g.add type edges).slots m) = read (g.slots m) := by
  rw [slots_add hg]
  split
  · rename_i hm
    rw [slots_of_le hg (Nat.le_of_eq hm.symm)]
    exact hread _ _ _
  · rfl

theorem forward?_add (m : Nat) : (g.add type edges).forward? m = g.forward? m :=
  read_add hg type edges Slots.forward (fun _ _ _ => rfl) m

theorem pending_add (m : Nat) : (g.add type edges).pending m = g.pending m :=
  read_add hg type edges Slots.pending (fun _ _ _ => rfl) m

theorem copyMark_add (m : Nat) : (g.add type edges).copyMark m = g.copyMark m :=
  read_add hg type edges Slots.copy (fun _ _ _ => rfl) m

theorem currentType_add {m : Nat} (hm : m < g.size) :
    (g.add type edges).currentType m = g.currentType m := by
  rw [currentType, slots_add hg, if_neg (Nat.ne_of_lt hm), currentType]

end Add

/-! ## Pointers -/

/-- The chain of pointers from the first node ends at the second. -/
def Ends (g : Graph) (n r : NodeId) : Prop :=
  ReflTransGen (fun n m => g.forward? n = some m) n r ∧ g.forward? r = none

theorem ends_self {g : Graph} {n : NodeId} (h : g.forward? n = none) : g.Ends n n :=
  ⟨ReflTransGen.refl, h⟩

/-- Following pointers one by one, for as long as it takes. -/
inductive EndsIn (g : Graph) : Nat → NodeId → NodeId → Prop
  | zero {n : NodeId} (h : g.forward? n = none) : EndsIn g 0 n n
  | succ {k : Nat} {n m r : NodeId} (hf : g.forward? n = some m) (h : EndsIn g k m r) :
    EndsIn g (k + 1) n r

section EndsIn

variable {g : Graph} {k : Nat} {n r : NodeId}

theorem Ends.endsIn (h : g.Ends n r) : ∃ k, g.EndsIn k n r := by
  obtain ⟨hpath, hr⟩ := h
  induction hpath using ReflTransGen.head_induction_on with
  | refl => exact ⟨0, .zero hr⟩
  | head hf _ ih =>
    obtain ⟨k, hk⟩ := ih
    exact ⟨k + 1, .succ hf hk⟩

theorem EndsIn.unique (h : g.EndsIn k n r) {k' : Nat} {r' : NodeId} (h' : g.EndsIn k' n r') :
    k = k' ∧ r = r' := by
  induction h generalizing k' with
  | zero hn =>
    cases h' with
    | zero => exact ⟨rfl, rfl⟩
    | succ hf _ =>
      rw [hn] at hf
      cases hf
  | succ hf _ ih =>
    cases h' with
    | zero hn =>
      rw [hn] at hf
      cases hf
    | succ hf' h' =>
      rw [hf] at hf'
      cases hf'
      obtain ⟨rfl, rfl⟩ := ih h'
      exact ⟨rfl, rfl⟩

theorem EndsIn.ne (h : g.EndsIn k n r) {m : NodeId} (hf : g.forward? n = some m) : m ≠ n := by
  rintro rfl
  cases h with
  | zero hn =>
    rw [hn] at hf
    cases hf
  | succ hf' h =>
    rw [hf] at hf'
    cases hf'
    have := (h.unique (.succ hf h)).1
    omega

theorem EndsIn.derefIn (h : g.EndsIn k n r) {fuel : Nat} (hfuel : k ≤ fuel) :
    g.derefIn fuel n = r := by
  induction h generalizing fuel with
  | zero hn => cases fuel <;> simp [Graph.derefIn, hn]
  | succ hf h ih =>
    cases fuel with
    | zero => omega
    | succ fuel =>
      simp only [Graph.derefIn, hf]
      rw [if_neg ((EndsIn.succ hf h).ne hf)]
      exact ih (by omega)

/-- After some pointers the rest of the chain is left. -/
theorem EndsIn.drop (h : g.EndsIn k n r) {i : Nat} (hi : i ≤ k) :
    g.EndsIn (k - i) (g.derefIn i n) r := by
  induction i generalizing k n with
  | zero => exact h
  | succ i ih =>
    cases h with
    | zero => omega
    | succ hf h =>
      simp only [Graph.derefIn, hf]
      rw [if_neg ((EndsIn.succ hf h).ne hf), Nat.add_sub_add_right]
      exact ih h (by omega)

theorem forward?_lt (hg : 0 < g.generation) {n m : Nat} (hf : g.forward? n = some m) :
    n < g.size := by
  by_contra hn
  rw [forward?, slots_of_le hg (Nat.le_of_not_lt hn)] at hf
  cases hf

/-- A chain is no longer than the graph is large, as it has no node twice. -/
theorem EndsIn.le_size (hg : 0 < g.generation) (h : g.EndsIn k n r) : k ≤ g.size := by
  have hstep : ∀ i < k, g.derefIn i n < g.size := by
    intro i hi
    have hrest := h.drop (Nat.le_of_lt hi)
    obtain ⟨j, hj⟩ : ∃ j, k - i = j + 1 := ⟨k - i - 1, by omega⟩
    rw [hj] at hrest
    cases hrest with
    | succ hf _ => exact forward?_lt hg hf
  have hinj : Set.InjOn (fun i => g.derefIn i n) (Finset.range k) := by
    intro i hi j hj heq
    have hi' := Finset.mem_range.1 (Finset.mem_coe.1 hi)
    have hj' := Finset.mem_range.1 (Finset.mem_coe.1 hj)
    have hi := h.drop (Nat.le_of_lt hi')
    have hj := h.drop (Nat.le_of_lt hj')
    simp only at heq
    rw [heq] at hi
    have := (hi.unique hj).1
    omega
  have hcard := Finset.card_le_card_of_injOn (t := Finset.range g.size) (fun i => g.derefIn i n)
    (fun i hi => Finset.mem_coe.2 (Finset.mem_range.2
      (hstep i (Finset.mem_range.1 (Finset.mem_coe.1 hi))))) hinj
  simpa using hcard

end EndsIn

/-- The node that stands for another is the end of its chain. -/
theorem deref_of_ends {g : Graph} (hg : 0 < g.generation) {n r : NodeId} (h : g.Ends n r) :
    g.deref n = r := by
  obtain ⟨k, hk⟩ := h.endsIn
  exact hk.derefIn (hk.le_size hg)

end Graph

end FeatureLogic
