import FeatureLogic.Proofs.Graph.Forest
import FeatureLogic.Proofs.Session.Footprint

/-!
Walks along the structure of an episode, turn by turn. A unification notes pointers, each from one
node that stands for itself to another; to copy out, to search for cycles, to count, to print and to
quick-check notes none. So the pointers are a forest after every turn, and no turn separates nodes
that one node stands for. Comparisons are not among these walks: they follow no pointers, and the
pairs that they note in their place may run in circles.
-/

namespace FeatureLogic.Session

/-! ## Turns -/

section Unify

variable {s : Session} (hg : s.graph.Linked)
include hg

theorem Absorbs.gathers {s' : Session} {left right first second : Nat} {type : TypeId}
    {tasks : List UnifyTask} (h : s.Absorbs left right first second type s' tasks)
    (hd : s.graph.Distinct first second) (size : Nat) : Graph.Gathers size s.graph s'.graph := by
  cases h with
  | bare | both => exact hg.gathers_setForward hd.symm size
  | turned =>
    have htype := (Graph.SamePointers.refl s.graph).setCurrentType second type
    exact (htype.gathers hg size).trans
      ((hg.setCurrentType second type).gathers_setForward (hd.setCurrentType second type) size)

/-- A turn of a unification separates no nodes. -/
theorem gathers_unifyTurn {task : UnifyTask} (ht : task.Within s.graph.size) (size : Nat) :
    Graph.Gathers size s.graph (s.unifyTurn task).state.graph := by
  have hsame : ∀ first second, s.graph.SamePointers (s.typed first second).graph :=
    fun _ _ => (Graph.SamePointers.refl _).setCurrentType ..
  have hlinked : ∀ first second, (s.typed first second).graph.Linked :=
    fun _ _ => hg.setCurrentType ..
  have hturned := s.unifyTurned task
  generalize s.unifyTurn task = turn at hturned ⊢
  cases hturned with
  | met | clashed | merged | shared | resumed => exact .refl ..
  | gained => exact ((Graph.SamePointers.refl _).addPending _ _).gathers hg size
  | absorbed hfirst hsecond hne _ _ habsorbs =>
    subst hfirst hsecond
    have hd := hg.distinct_deref ht.1 ht.2 hne
    exact ((hsame ..).gathers hg size).trans
      (habsorbs.gathers (hlinked ..) (hd.setCurrentType ..) size)
  | @completed _ _ first second root =>
    have hcopy := Graph.samePointers_copyWalk (hlinked first second).stamped.generation_pos
      (fun _ => s.grammar.prototypes) 1 root
    exact ((hsame ..).trans hcopy).gathers hg size

end Unify

theorem samePointers_copyTurn {g : Graph} (hg : 0 < g.generation) {s : Session}
    (h : g.SamePointers s.graph) (r : Restrictor) (task : CopyTask) :
    g.SamePointers (copyTurn r s task).state.graph := by
  cases task with
  | enter n cursor =>
    simp only [copyTurn]
    split
    · exact h
    · exact h
    · exact h.setCopyMark ..
  | finish n type kept => exact (h.add hg ..).setCopyMark ..

theorem samePointers_cycleTurn {g g' : Graph} (h : g.SamePointers g') (task : CycleTask) :
    g.SamePointers (cycleTurn g' task).state := by
  cases task with
  | leave n => exact h.setCopyMark ..
  | enter n =>
    simp only [cycleTurn]
    split
    · exact (h.setVisits ..).setCopyMark ..
    · split <;> exact h

theorem samePointers_countTurn {g : Graph} (times : Nat) {state : Graph × Nat}
    (h : g.SamePointers state.1) (n : NodeId) :
    g.SamePointers (countTurn times state n).state.1 := by
  obtain ⟨g', count⟩ := state
  simp only [countTurn]
  split
  · exact h
  · exact h.setVisits ..

/-! ## Walks -/

/-- The walks along the structure of the episode. -/
inductive Walk
  | unify (left right : NodeId)
  | extract (root : NodeId) (r : Restrictor)
  | cyclic (root : NodeId)
  | count (times : Nat) (root : NodeId)
  /-- Printing and quick check, for which the graph is only looked at. -/
  | look

namespace Walk

/-- The session after some turns. -/
def after (s : Session) (turns : Nat) : Walk → Session
  | unify left right => (Agenda.run unifyTurn turns s [.pair left right]).state
  | extract root r => (Agenda.run (copyTurn r) turns s [.enter root r.start]).state
  | cyclic root => s.mapGraph fun g => (Agenda.run cycleTurn turns g [.enter root]).state
  | count times root =>
    s.mapGraph fun g => (Agenda.run (countTurn times) turns (g, 0) [root]).state.1
  | look => s

/-- The walk begins at nodes of the graph. -/
def Within (size : Nat) : Walk → Prop
  | unify left right => left < size ∧ right < size
  | extract root _ | cyclic root | count _ root => root < size
  | look => True

/-- A unification that succeeds leaves the session as it is after its last turn. -/
theorem after_of_entangle {s s' : Session} {turns : Nat} {left right : NodeId}
    (h : s.entangle turns left right = some (true, s')) :
    (unify left right).after s turns = s' := by
  rw [after, run_of_entangle h]
  rfl

/-- Only a unification notes pointers. -/
theorem unify_or_samePointers {s : Session} (hg : 0 < s.graph.generation) (w : Walk) :
    (∃ left right, w = .unify left right) ∨
      ∀ turns, s.graph.SamePointers (w.after s turns).graph := by
  cases w with
  | unify left right => exact .inl ⟨left, right, rfl⟩
  | extract root r =>
    exact .inr fun turns => Agenda.state_run (P := fun t : Session => s.graph.SamePointers t.graph)
      (fun task h => samePointers_copyTurn hg h r task) turns _ (.refl _)
  | cyclic root =>
    exact .inr fun turns => Agenda.state_run (P := fun g => s.graph.SamePointers g)
      (fun task h => samePointers_cycleTurn h task) turns _ (.refl _)
  | count times root =>
    exact .inr fun turns => Agenda.state_run
      (P := fun state : Graph × Nat => s.graph.SamePointers state.1)
      (fun n h => samePointers_countTurn times h n) turns _ (.refl _)
  | look => exact .inr fun _ => .refl _

end Walk

theorem lasting_generation {number : Nat} (hpos : 0 < number) :
    Lasting fun g => g.generation = number where
  setForward h _ _ := h
  setCurrentType h _ _ := h
  addPending h _ _ := h
  copyFrom h _ root := (Graph.samePointers_copyWalk (h ▸ hpos) _ 1 root).generation_eq.trans h

namespace Walk

variable {s : Session} (hs : s.Closed) {w : Walk} (hw : w.Within s.graph.size)
include hs hw

/-- What a unification has linked so far, or the pointers that there were before the walk. -/
theorem linked_or_samePointers (turns : Nat) :
    (w.after s turns).graph.Linked ∧ s.graph.size ≤ (w.after s turns).graph.size ∨
      s.graph.SamePointers (w.after s turns).graph := by
  rcases unify_or_samePointers hs.graph.stamped.generation_pos w with ⟨left, right, rfl⟩ | hsame
  · refine .inl ((keeps_linking hs.grammar).state_of
      (P := fun t : Session => t.graph.Linked ∧ s.graph.size ≤ t.graph.size)
      (fun h => ⟨h.graph, h.extends_start.size_le⟩) (fun h ht => ?_) turns
      (linking_start hs.graph hw))
    rw [(unifyTurn_halt_frame ht).1]
    exact ⟨h.graph, h.extends_start.size_le⟩
  · exact .inr (hsame turns)

theorem forest (turns : Nat) : (w.after s turns).graph.Forest := by
  rcases linked_or_samePointers hs hw turns with ⟨h, -⟩ | h
  · exact h.forest
  · exact h.forest hs.graph

/-- A walk goes on in one episode and drops no nodes. -/
theorem stays (turns : Nat) : (w.after s turns).graph.generation = s.graph.generation ∧
    s.graph.size ≤ (w.after s turns).graph.size := by
  have hpos := hs.graph.stamped.generation_pos
  refine ⟨?_, (linked_or_samePointers hs hw turns).elim And.right (·.size_le)⟩
  rcases unify_or_samePointers hpos w with ⟨left, right, rfl⟩ | hsame
  · exact Agenda.state_run (P := fun t : Session => t.graph.generation = s.graph.generation)
      (fun task h => (lasting_generation hpos).unifyTurn h task) turns _ rfl
  · exact (hsame turns).generation_eq

/-- A turn separates no nodes. -/
theorem gathers_turn (turns size : Nat) :
    Graph.Gathers size (w.after s turns).graph (w.after s (turns + 1)).graph := by
  rcases unify_or_samePointers hs.graph.stamped.generation_pos w with ⟨left, right, rfl⟩ | hsame
  · exact (keeps_linking hs.grammar).state_succ
      (R := fun t u : Session => Graph.Gathers size t.graph u.graph) (fun _ => .refl ..)
      (fun h => gathers_unifyTurn h.graph (h.within _ (List.mem_cons_self ..)) size) turns
      (linking_start hs.graph hw)
  · exact .of_deref_eq fun n _ =>
      ((hsame (turns + 1)).deref_eq hs.graph n).trans ((hsame turns).deref_eq hs.graph n).symm

theorem gathers (turns size : Nat) : Graph.Gathers size s.graph (w.after s turns).graph := by
  induction turns with
  | zero =>
    have hstart : (w.after s 0).graph = s.graph := by cases w <;> rfl
    rw [hstart]
    exact .refl ..
  | succ turns ih => exact ih.trans (gathers_turn hs hw turns size)

end Walk

end FeatureLogic.Session
