import FeatureLogic.Proofs.Graph.Linked

/-!
Episodes. A note counts when its stamp is the number of the episode, and no stamp is ever ahead of
it (`Graph.InTime`). So every episode begins without notes, also the one in which numbers begin
anew. In an episode the first note on a node wipes what earlier ones left there, so that a slot
reads as the last value that was written to it, whatever is done to the graph besides
(`Graph.read_run`).
-/

namespace FeatureLogic

/-! ## Slots -/

/-- What there can be a note of on a node; edges gained are noted by feature. -/
inductive Slot
  | forward
  | type
  | copy
  | visits
  | pending (feature : FeatureId)
  deriving DecidableEq

/-- What a slot reads as. -/
inductive Reading
  | forward (target : Option NodeId)
  | type (type : TypeId)
  | copy (mark : CopyMark)
  | visits (count : Nat)
  | pending (target : Option NodeId)
  deriving DecidableEq

/-- A value for a slot. -/
inductive Write
  | forward (target : NodeId)
  | type (type : TypeId)
  | copy (mark : CopyMark)
  | visits (count : Nat)
  | pending (e : Edge)

/-- The slot without a note on a node of the given type. -/
def Slot.unset (type : TypeId) : Slot → Reading
  | .forward => .forward none
  | .type => .type type
  | .copy => .copy .blank
  | .visits => .visits 0
  | .pending _ => .pending none

def Slots.read (s : Slots) : Slot → Reading
  | .forward => .forward s.forward
  | .type => .type s.type
  | .copy => .copy s.copy
  | .visits => .visits s.visits
  | .pending feature => .pending (Edges.target? feature s.pending)

namespace Write

def slot : Write → Slot
  | .forward _ => .forward
  | .type _ => .type
  | .copy _ => .copy
  | .visits _ => .visits
  | .pending e => .pending e.feature

/-- What the slot reads as when the value is written. -/
def reading : Write → Reading
  | .forward target => .forward (some target)
  | .type t => .type t
  | .copy mark => .copy mark
  | .visits count => .visits count
  | .pending e => .pending (some e.target)

def apply (s : Slots) : Write → Slots
  | .forward target => { s with forward := some target }
  | .type t => { s with type := t }
  | .copy mark => { s with copy := mark }
  | .visits count => { s with visits := count }
  | .pending e => { s with pending := Edges.put e.feature e.target s.pending }

theorem stamp_apply (w : Write) (s : Slots) : (apply s w).stamp = s.stamp := by
  cases w <;> rfl

/-- A value is written to one slot and to no other. -/
theorem read_apply (w : Write) (s : Slots) (slot : Slot) :
    (apply s w).read slot = if w.slot = slot then w.reading else s.read slot := by
  cases w with
  | pending e =>
    cases slot with
    | pending feature =>
      simp only [apply, Slots.read, Edges.target?_put, Write.slot, reading, Slot.pending.injEq]
      split <;> rfl
    | _ => rfl
  | _ => cases slot <;> rfl

end Write

theorem Slots.read_unset (stamp : Nat) (type : TypeId) (slot : Slot) :
    (Slots.unset stamp type).read slot = slot.unset type := by
  cases slot <;> rfl

namespace Graph

/-! ## Reading and writing -/

/-- Writes a value to a slot of a node. -/
def write (g : Graph) (n : NodeId) : Write → Graph
  | .forward target => g.setForward n target
  | .type type => g.setCurrentType n type
  | .copy mark => g.setCopyMark n mark
  | .visits count => g.setVisits n count
  | .pending e => g.addPending n e

/-- What a slot of a node reads as. -/
def read (g : Graph) (n : NodeId) : Slot → Reading
  | .forward => .forward (g.forward? n)
  | .type => .type (g.currentType n)
  | .copy => .copy (g.copyMark n)
  | .visits => .visits (g.visits n)
  | .pending feature => .pending (Edges.target? feature (g.pending n))

theorem write_eq_note (g : Graph) (n : NodeId) (w : Write) :
    g.write n w = g.note n (Write.apply · w) := by
  cases w <;> rfl

theorem read_eq (g : Graph) (n : NodeId) (slot : Slot) : g.read n slot = (g.slots n).read slot := by
  cases slot <;> rfl

theorem generation_write (g : Graph) (n : NodeId) (w : Write) :
    (g.write n w).generation = g.generation := by
  rw [write_eq_note]
  rfl

theorem type_write (g : Graph) (n m : NodeId) (w : Write) : (g.write n w).type m = g.type m := by
  rw [write_eq_note, type_note]

theorem stamp_write (g : Graph) {n : Nat} (hn : n < g.size) (w : Write) :
    ((g.write n w).node n).slots.stamp = g.generation := by
  rw [write_eq_note, node_note, if_pos ⟨rfl, hn⟩]
  exact (w.stamp_apply _).trans (Node.stamp_slotsIn _ _)

section Read

variable {g : Graph} {n : Nat} {slot : Slot}

/-- A node without a note of the episode reads as unset. -/
theorem read_of_stamp_ne (h : (g.node n).slots.stamp ≠ g.generation) :
    g.read n slot = slot.unset (g.type n) := by
  rw [read_eq, slots, Node.slotsIn, if_neg h, Slots.read_unset]
  rfl

/-- A node with notes of the episode reads as they say, whatever its committed type and edges. -/
theorem read_of_stamp_eq (h : (g.node n).slots.stamp = g.generation) :
    g.read n slot = (g.node n).slots.read slot := by
  rw [read_eq, slots, Node.slotsIn, if_pos h]

theorem unset_congr {t u : TypeId} (h : slot = .type → t = u) : slot.unset t = slot.unset u := by
  cases slot with
  | type => rw [h rfl]
  | _ => rfl

theorem read_write (g : Graph) {m : Nat} (hm : m < g.size) (w : Write) (n : Nat) (slot : Slot) :
    (g.write m w).read n slot = if m = n ∧ w.slot = slot then w.reading else g.read n slot := by
  rw [write_eq_note, read_eq, read_eq, slots_note_of_lt hm w.stamp_apply]
  by_cases hn : m = n
  · simp [hn, w.read_apply]
  · simp [hn]

end Read

/-! ## Operations -/

/-- What is done to a graph. -/
inductive Op
  | add (type : TypeId) (edges : List Edge)
  | setType (n : NodeId) (type : TypeId)
  | setEdges (n : NodeId) (edges : List Edge)
  | putEdge (n : NodeId) (feature : FeatureId) (target : NodeId)
  | dropEdge (n : NodeId) (feature : FeatureId)
  | write (n : NodeId) (w : Write)
  | invalidate
  | truncate (size : Nat)
  | clear

namespace Op

def apply (g : Graph) : Op → Graph
  | add type edges => g.add type edges
  | setType n type => g.setType n type
  | setEdges n edges => g.setEdges n edges
  | putEdge n feature target => g.putEdge n feature target
  | dropEdge n feature => g.dropEdge n feature
  | write n w => g.write n w
  | invalidate => g.invalidate
  | truncate size => g.truncate size
  | clear => g.clear

/-- The node that is changed. -/
def node? : Op → Option NodeId
  | setType n _ | setEdges n _ | putEdge n _ _ | dropEdge n _ | write n _ => some n
  | add _ _ | invalidate | truncate _ | clear => none

/-- The last value written to a slot of a node since the last episode began, as far as that node is
still there. -/
def record (n : NodeId) (slot : Slot) (last : Option Reading) : Op → Option Reading
  | write m w => if m = n ∧ w.slot = slot then some w.reading else last
  | truncate size => if size ≤ n then none else last
  | invalidate | clear => none
  | add _ _ | setType _ _ | setEdges _ _ | putEdge _ _ _ | dropEdge _ _ => last

end Op

/-- The graph after some operations. -/
def run (g : Graph) (ops : List Op) : Graph := ops.foldl Op.apply g

/-- Every operation is given a node that is there. -/
def Allowed (g : Graph) : List Op → Prop
  | [] => True
  | op :: ops => (∀ n ∈ op.node?, n < g.size) ∧ Allowed (op.apply g) ops

instance decidableAllowed : (g : Graph) → (ops : List Op) → Decidable (g.Allowed ops)
  | _, [] => .isTrue trivial
  | g, op :: ops =>
    have := decidableAllowed (op.apply g) ops
    inferInstanceAs (Decidable (_ ∧ _))

def lastWritten? (n : NodeId) (slot : Slot) (ops : List Op) : Option Reading :=
  ops.foldl (Op.record n slot) none

/-! ## Stamps -/

section Stamps

variable {g : Graph}

theorem InTime.write (h : g.InTime) (n : NodeId) (w : Write) : (g.write n w).InTime := by
  rw [write_eq_note]
  exact h.note n w.stamp_apply

theorem InTime.apply (h : g.InTime) (op : Op) : (op.apply g).InTime := by
  cases op with
  | add type edges => exact h.add type edges
  | setType n _ | setEdges n _ | putEdge n _ _ | dropEdge n _ => exact h.modify n fun _ h => h
  | write n w => exact h.write n w
  | invalidate => exact h.invalidate.1.inTime
  | truncate size => exact h.truncate size
  | clear => exact stamped_empty.inTime

theorem InTime.run (h : g.InTime) (ops : List Op) : (g.run ops).InTime := by
  induction ops generalizing g with
  | nil => exact h
  | cons op ops ih => exact ih (h.apply op)

theorem generation_invalidate (g : Graph) : g.invalidate.generation =
    if g.generation = lastGeneration then 1 else g.generation + 1 := by
  unfold Graph.invalidate
  split <;> rfl

theorem generation_invalidate_congr {g g' : Graph} (h : g'.generation = g.generation) :
    g'.invalidate.generation = g.invalidate.generation := by
  rw [generation_invalidate, generation_invalidate, h]

/-- The next episode has another number. -/
theorem generation_invalidate_ne (g : Graph) : g.invalidate.generation ≠ g.generation := by
  rw [generation_invalidate]
  split
  · rename_i hlast
    rw [hlast]
    decide
  · exact Nat.succ_ne_self _

theorem generation_apply (g : Graph) (op : Op) :
    (op.apply g).generation = g.generation ∨ op = .invalidate ∨ op = .clear := by
  cases op with
  | write n w => exact .inl (generation_write g n w)
  | invalidate => exact .inr (.inl rfl)
  | clear => exact .inr (.inr rfl)
  | _ => exact .inl rfl

theorem Stamped.apply (hg : g.Stamped) (op : Op) : (op.apply g).Stamped := by
  refine ⟨?_, hg.inTime.apply op⟩
  rcases g.generation_apply op with heq | rfl | rfl
  · rw [heq]
    exact hg.generation_pos
  · exact hg.invalidate.1.generation_pos
  · exact Nat.one_pos

/-- The number of an episode stays in its range. -/
theorem generation_run_le (h : g.generation ≤ lastGeneration) (ops : List Op) :
    (g.run ops).generation ≤ lastGeneration := by
  induction ops generalizing g with
  | nil => exact h
  | cons op ops ih =>
    apply ih
    rcases g.generation_apply op with heq | rfl | rfl
    · rwa [heq]
    · show g.invalidate.generation ≤ lastGeneration
      rw [generation_invalidate]
      split
      · decide
      · omega
    · show 1 ≤ lastGeneration
      decide

end Stamps

/-! ## One operation -/

/-- An operation leaves the notes of a node as they are, and its type where it has notes, unless
that is set. -/
structure Op.Passes (op : Op) (g : Graph) (n : Nat) : Prop where
  generation_eq : (op.apply g).generation = g.generation
  slots_eq : ((op.apply g).node n).slots = (g.node n).slots
  type_eq : (g.node n).slots.stamp = g.generation →
    (op.apply g).type n = g.type n ∨ ∃ t, op = .setType n t
  record_eq : ∀ slot last, op.record n slot last = last

/-- An operation leaves a node without notes, where nothing has been written yet. -/
structure Op.Wipes (op : Op) (g : Graph) (n : Nat) : Prop where
  stamp_ne : ((op.apply g).node n).slots.stamp ≠ (op.apply g).generation
  record_eq : ∀ slot last, op.record n slot last = none

section Apply

variable {g : Graph} {op : Op} {n : Nat} {slot : Slot} {last : Option Reading}

theorem Op.Passes.stamp_eq (h : op.Passes g n) (hstamp : (g.node n).slots.stamp = g.generation) :
    ((op.apply g).node n).slots.stamp = (op.apply g).generation := by
  rw [h.slots_eq, h.generation_eq, hstamp]

theorem Op.passes_of_node_eq (hgeneration : (op.apply g).generation = g.generation)
    (hnode : (op.apply g).node n = g.node n) (hrecord : ∀ slot last, op.record n slot last = last) :
    op.Passes g n where
  generation_eq := hgeneration
  slots_eq := by rw [hnode]
  type_eq _ := .inl (by rw [type, hnode, type])
  record_eq := hrecord

/-- A change to the edges of nodes passes all notes. -/
theorem Op.passes_of_edges {m : NodeId} {f : Node → Node}
    (happly : op.apply g = { g with nodes := g.nodes.modify m f })
    (hslots : ∀ node, (f node).slots = node.slots) (htype : ∀ node, (f node).type = node.type)
    (hrecord : ∀ slot last, op.record n slot last = last) : op.Passes g n where
  generation_eq := by rw [happly]
  slots_eq := by
    rw [happly, node_modify]
    split
    · exact hslots _
    · rfl
  type_eq _ := by
    left
    rw [happly, type, node_modify]
    split
    · exact htype _
    · rfl
  record_eq := hrecord

theorem Op.passes_add (hg : g.Stamped) (type : TypeId) (edges : List Edge) :
    (Op.add type edges).Passes g n := by
  by_cases hn : n = g.size
  · -- the place of the new node was empty, and so had no notes
    have hold : g.node n = default := node_of_le (Nat.le_of_eq hn.symm)
    have hnew : (g.add type edges).node n = .fresh type edges := by rw [node_add, if_pos hn]
    refine ⟨rfl, ?_, fun hstamp => ?_, fun _ _ => rfl⟩
    · show ((g.add type edges).node n).slots = (g.node n).slots
      rw [hnew, hold]
      rfl
    · rw [hold] at hstamp
      exact absurd hstamp (Nat.ne_of_lt hg.generation_pos)
  · exact passes_of_node_eq rfl ((node_add ..).trans (if_neg hn)) fun _ _ => rfl

theorem Op.passes_setType (m : NodeId) (t : TypeId) : (Op.setType m t).Passes g n where
  generation_eq := rfl
  slots_eq := by
    show ((g.setType m t).node n).slots = (g.node n).slots
    rw [Graph.setType, node_modify]
    split <;> rfl
  type_eq _ := by
    by_cases hm : m = n
    · exact .inr ⟨t, by rw [hm]⟩
    · exact .inl ((type_setType ..).trans (if_neg fun h => hm h.1))
  record_eq _ _ := rfl

theorem Op.passes_write {m : NodeId} (hm : m ≠ n) (w : Write) : (Op.write m w).Passes g n := by
  have hnode : (g.write m w).node n = g.node n := by
    rw [write_eq_note, node_note, if_neg fun h => hm h.1]
  exact passes_of_node_eq (generation_write g m w) hnode fun _ _ => if_neg fun h => hm h.1

/-- An operation writes to a node, or passes its notes, or wipes them. -/
theorem Op.cases_node (hg : g.Stamped) (op : Op) (n : Nat) :
    (∃ w, op = .write n w) ∨ op.Passes g n ∨ op.Wipes g n := by
  cases op with
  | add type edges => exact .inr (.inl (passes_add hg type edges))
  | setType m t => exact .inr (.inl (passes_setType m t))
  | setEdges m _ | putEdge m _ _ | dropEdge m _ =>
    exact .inr (.inl (passes_of_edges rfl (fun _ => rfl) (fun _ => rfl) fun _ _ => rfl))
  | write m w =>
    by_cases hm : m = n
    · exact .inl ⟨w, by rw [hm]⟩
    · exact .inr (.inl (passes_write hm w))
  | invalidate => exact .inr (.inr ⟨hg.invalidate.2 n, fun _ _ => rfl⟩)
  | truncate size =>
    by_cases hn : n < size
    · have hkept : (g.truncate size).node n = g.node n := (node_truncate ..).trans (if_pos hn)
      exact .inr (.inl (passes_of_node_eq rfl hkept fun _ _ => if_neg (Nat.not_le_of_lt hn)))
    · have hgone : (g.truncate size).node n = default := (node_truncate ..).trans (if_neg hn)
      refine .inr (.inr ⟨?_, fun _ _ => if_pos (Nat.le_of_not_lt hn)⟩)
      show ((g.truncate size).node n).slots.stamp ≠ g.generation
      rw [hgone]
      exact Nat.ne_of_lt hg.generation_pos
  | clear => exact .inr (.inr ⟨atRest_empty n, fun _ _ => rfl⟩)

/-! ## What was written -/

/-- A slot that was written to reads as what was written last. -/
def Written (g : Graph) (n : NodeId) (slot : Slot) (last : Option Reading) : Prop :=
  ∀ v, last = some v → (g.node n).slots.stamp = g.generation ∧ g.read n slot = v

/-- A slot that was not written to reads as unset. -/
def Blank (g : Graph) (n : NodeId) (slot : Slot) (last : Option Reading) : Prop :=
  last = none → g.read n slot = slot.unset (g.type n)

theorem Written.apply (h : g.Written n slot last) (hg : g.Stamped)
    (hop : ∀ m ∈ op.node?, m < g.size) :
    (op.apply g).Written n slot (op.record n slot last) := by
  intro v hv
  rcases op.cases_node hg n with ⟨w, rfl⟩ | hpasses | hwipes
  · have hn : n < g.size := hop n rfl
    refine ⟨(stamp_write g hn w).trans (generation_write g n w).symm,
      (read_write g hn w n slot).trans ?_⟩
    by_cases hslot : w.slot = slot
    · have hrecord : (Op.write n w).record n slot last = some w.reading := if_pos ⟨rfl, hslot⟩
      rw [hrecord] at hv
      rw [if_pos ⟨rfl, hslot⟩]
      exact Option.some.inj hv
    · have hrecord : (Op.write n w).record n slot last = last := if_neg fun h => hslot h.2
      rw [hrecord] at hv
      rw [if_neg fun h => hslot h.2]
      exact (h v hv).2
  · rw [hpasses.record_eq] at hv
    obtain ⟨hstamp, hread⟩ := h v hv
    refine ⟨hpasses.stamp_eq hstamp, ?_⟩
    rw [← hread, read_of_stamp_eq hstamp, read_of_stamp_eq (hpasses.stamp_eq hstamp),
      hpasses.slots_eq]
  · rw [hwipes.record_eq] at hv
    cases hv

theorem Blank.apply (h : g.Blank n slot last) (hg : g.Stamped)
    (hop : ∀ m ∈ op.node?, m < g.size)
    (hedit : slot = .type → ∀ t, op ≠ .setType n t) :
    (op.apply g).Blank n slot (op.record n slot last) := by
  intro hnone
  rcases op.cases_node hg n with ⟨w, rfl⟩ | hpasses | hwipes
  · have hn : n < g.size := hop n rfl
    show (g.write n w).read n slot = slot.unset ((g.write n w).type n)
    rw [read_write g hn, type_write]
    by_cases hslot : w.slot = slot
    · have hrecord : (Op.write n w).record n slot last = some w.reading := if_pos ⟨rfl, hslot⟩
      rw [hrecord] at hnone
      cases hnone
    · have hrecord : (Op.write n w).record n slot last = last := if_neg fun h => hslot h.2
      rw [hrecord] at hnone
      rw [if_neg fun h => hslot h.2]
      exact h hnone
  · rw [hpasses.record_eq] at hnone
    -- where the notes count, one for the type would have to be changed by an edit
    by_cases hstamp : (g.node n).slots.stamp = g.generation
    · have hread := h hnone
      rw [read_of_stamp_eq hstamp] at hread
      rw [read_of_stamp_eq (hpasses.stamp_eq hstamp), hpasses.slots_eq, hread]
      apply unset_congr
      intro hslot
      rcases hpasses.type_eq hstamp with htype | ⟨t, ht⟩
      · exact htype.symm
      · exact absurd ht (hedit hslot t)
    · apply read_of_stamp_ne
      rwa [hpasses.slots_eq, hpasses.generation_eq]
  · exact read_of_stamp_ne hwipes.stamp_ne

end Apply

/-! ## One operation after the other -/

section Run

variable {g : Graph} {n : Nat} {slot : Slot} {last : Option Reading}

theorem Written.run (h : g.Written n slot last) (hg : g.Stamped) {ops : List Op}
    (hops : g.Allowed ops) : (g.run ops).Written n slot (ops.foldl (Op.record n slot) last) := by
  induction ops generalizing g last with
  | nil => exact h
  | cons op ops ih => exact ih (h.apply hg hops.1) (hg.apply op) hops.2

theorem Blank.run (h : g.Blank n slot last) (hg : g.Stamped) {ops : List Op}
    (hops : g.Allowed ops) (hedit : slot = .type → ∀ t, .setType n t ∉ ops) :
    (g.run ops).Blank n slot (ops.foldl (Op.record n slot) last) := by
  induction ops generalizing g last with
  | nil => exact h
  | cons op ops ih =>
    have hfirst : slot = .type → ∀ t, op ≠ .setType n t := by
      rintro hslot t rfl
      exact hedit hslot t (by simp)
    have hrest : slot = .type → ∀ t, .setType n t ∉ ops :=
      fun hslot t ht => hedit hslot t (by simp [ht])
    exact ih (h.apply hg hops.1 hfirst) (hg.apply op) hops.2 hrest

/-- From the beginning of an episode on, slots read as they were written to. -/
theorem read_run (hg : g.Stamped) (hr : g.AtRest) {ops : List Op} (hops : g.Allowed ops)
    (n : Nat) (slot : Slot) :
    (∀ v, lastWritten? n slot ops = some v → (g.run ops).read n slot = v) ∧
    (lastWritten? n slot ops = none → (slot = .type → ∀ t, .setType n t ∉ ops) →
      (g.run ops).read n slot = slot.unset ((g.run ops).type n)) := by
  have hwritten : g.Written n slot none := nofun
  have hblank : g.Blank n slot none := fun _ => read_of_stamp_ne (hr n)
  exact ⟨fun v hv => (hwritten.run hg hops v hv).2,
    fun hnone hedit => hblank.run hg hops hedit hnone⟩

end Run

/-- From any graph without a stamp ahead of the number of its episode, whatever that number is, no
operations bring such a stamp about, nor do they bring that number out of its range. The next
episode begins with all slots unset, also when numbers begin anew. After that, whatever is done,
each slot reads as the last value written to it in the episode, and as unset where none was; a type
that was not written is the committed one, unless this was set. -/
theorem read_last_written {g : Graph} (hstamps : g.InTime) (hlast : g.generation ≤ lastGeneration)
    (ops : List Op) :
    (g.run ops).InTime ∧ (g.run ops).generation ≤ lastGeneration ∧
    (∀ n, (g.run ops).invalidate.forward? n = none ∧ (g.run ops).invalidate.deref n = n ∧
      (g.run ops).invalidate.currentType n = (g.run ops).type n ∧
      (g.run ops).invalidate.currentEdges n = (g.run ops).edges n ∧
      (g.run ops).invalidate.pending n = [] ∧ (g.run ops).invalidate.copyMark n = .blank ∧
      (g.run ops).invalidate.visits n = 0) ∧
    ∀ later, (g.run ops).invalidate.Allowed later → ∀ n slot,
      (∀ v, lastWritten? n slot later = some v →
        ((g.run ops).invalidate.run later).read n slot = v) ∧
      (lastWritten? n slot later = none → (slot = .type → ∀ t, .setType n t ∉ later) →
        ((g.run ops).invalidate.run later).read n slot =
          slot.unset (((g.run ops).invalidate.run later).type n)) := by
  have hrun := hstamps.run ops
  obtain ⟨hstamped, hrest⟩ := hrun.invalidate
  refine ⟨hrun, generation_run_le hlast ops, fun n => ?_,
    fun later hlater n slot => read_run hstamped hrest hlater n slot⟩
  obtain ⟨hderef, htype, hedges⟩ := hrest.settled n
  refine ⟨hrest.forward_eq n, hderef, ?_, ?_, hrest.pending_eq n, hrest.copyMark_eq n, ?_⟩
  · rw [htype, type_invalidate]
  · rw [hedges, edges_invalidate]
  · rw [visits, hrest.slots_eq]
    rfl

/-- The graph without nodes in the last episode before numbers begin anew. -/
def late : Graph := ⟨#[], lastGeneration⟩

/-- Two nodes are added, and the first one points at the second, which gains an edge. -/
def lateOps : List Op :=
  [.add .top [], .add (.of 1) [], .write 0 (.forward 1), .write 1 (.pending ⟨3, 0⟩)]

/-- The second node gets types and a pointer, gives way to a new one, and that is counted twice. -/
def laterOps : List Op :=
  [.write 1 (.type (.of 2)), .write 1 (.type (.of 3)), .write 1 (.forward 0), .truncate 1,
    .add (.of 4) [], .write 1 (.visits 1), .write 1 (.visits 2)]

/-- Numbers begin anew, the pointer is gone with them, and later the new node has nothing of what
was written to the dropped one. -/
theorem read_last_written_late : late.InTime ∧ late.generation ≤ lastGeneration ∧
    (late.run lateOps).invalidate.generation = 1 ∧ (late.run lateOps).deref 0 = 1 ∧
    (late.run lateOps).invalidate.deref 0 = 0 ∧
    (late.run lateOps).invalidate.Allowed laterOps ∧
    ((late.run lateOps).invalidate.run laterOps).read 1 .visits = .visits 2 ∧
    ((late.run lateOps).invalidate.run laterOps).read 1 .type = .type (.of 4) ∧
    ((late.run lateOps).invalidate.run laterOps).read 1 .forward = .forward none := by
  have hstamps : late.InTime := by
    intro n
    rw [node_of_le (Nat.zero_le n)]
    exact Nat.zero_le _
  have hallowed : (late.run lateOps).invalidate.Allowed laterOps := by decide +kernel
  obtain ⟨-, -, hunset, hlater⟩ := read_last_written hstamps (Nat.le_refl _) lateOps
  refine ⟨hstamps, Nat.le_refl _, by decide +kernel, by decide +kernel, (hunset 0).2.1, hallowed,
    (hlater _ hallowed 1 .visits).1 _ (by decide), ?_,
    (hlater _ hallowed 1 .forward).2 (by decide) nofun⟩
  have htype := (hlater _ hallowed 1 .type).2 (by decide) (by simp [laterOps])
  have hcommitted : ((late.run lateOps).invalidate.run laterOps).type 1 = .of 4 := by
    decide +kernel
  rw [htype, hcommitted]
  rfl

end Graph

end FeatureLogic
