import FeatureLogic.Proofs.Notation.Parsing
import FeatureLogic.Proofs.Session.Turns
import FeatureLogic.Session.Item
import FeatureLogic.Session.Survey

/-!
Stamps through whole walks. No operation of a session makes a note of an episode to come, whether
it notes, adds, edits or drops nodes; so whatever ends the episode leaves no note that counts.
-/

namespace FeatureLogic

/-- To copy committed structure makes no notes. -/
theorem Graph.Stamped.copyWalk {g : Graph} (h : g.Stamped) (source : Graph → Graph) (rounds : Nat)
    (root : NodeId) : (Copying.walk source rounds g root).Stamped := by
  rw [Copying.walk, Agenda.runRounds_eq_run]
  refine Agenda.state_run (P := fun c : Copying => c.graph.Stamped) (fun {c} task hc => ?_) _ _ h
  cases task with
  | enter n =>
    simp only [Copying.turn]
    split
    · exact hc
    · exact hc.add ..
  | connect copy edges => exact hc.setEdges ..

namespace Session

/-! ## Unification and copies -/

/-- What a unification leaves of a graph, whatever it notes and copies. -/
structure Lasting (P : Graph → Prop) : Prop where
  setForward : ∀ {g : Graph}, P g → ∀ n target, P (g.setForward n target)
  setCurrentType : ∀ {g : Graph}, P g → ∀ n type, P (g.setCurrentType n type)
  addPending : ∀ {g : Graph}, P g → ∀ n e, P (g.addPending n e)
  copyFrom : ∀ {g : Graph}, P g → ∀ source root, P (g.copyFrom source root)

section Lasting

variable {P : Graph → Prop} (hP : Lasting P) {s : Session} (hs : P s.graph)
include hP hs

theorem Lasting.absorbs {s' : Session} {left right first second : NodeId} {type : TypeId}
    {tasks : List UnifyTask} (h : s.Absorbs left right first second type s' tasks) : P s'.graph := by
  cases h with
  | bare | both => exact hP.setForward hs ..
  | turned => exact hP.setForward (hP.setCurrentType hs ..) ..

theorem Lasting.unifyTurn (task : UnifyTask) : P (s.unifyTurn task).state.graph := by
  have htyped : ∀ first second, P (s.typed first second).graph :=
    fun _ _ => hP.setCurrentType hs ..
  have hturned := s.unifyTurned task
  generalize s.unifyTurn task = turn at hturned ⊢
  cases hturned with
  | met | clashed | merged | shared | resumed => exact hs
  | absorbed _ _ _ _ _ habsorbs => exact Lasting.absorbs hP (htyped ..) habsorbs
  | completed => exact hP.copyFrom (htyped ..) ..
  | gained => exact hP.addPending hs ..

end Lasting

theorem lasting_stamped : Lasting Graph.Stamped where
  setForward h := h.setForward
  setCurrentType h := h.setCurrentType
  addPending h := h.addPending
  copyFrom h _ root := h.copyWalk _ 1 root

section Turns

variable {s : Session} (hs : s.graph.Stamped)
include hs

theorem stamped_copyTurn (r : Restrictor) (task : CopyTask) :
    (copyTurn r s task).state.graph.Stamped := by
  cases task with
  | enter n cursor =>
    simp only [copyTurn]
    split
    · exact hs
    · exact hs
    · exact hs.setCopyMark ..
  | finish n type kept => exact (hs.add ..).setCopyMark ..

end Turns

/-! ## Walks that only note

They compare structures or find out about them, and leave all that is committed as it is. -/

/-- The second session is the first one with other notes and records, and it may know more of its
lattice. -/
structure Noted (s s' : Session) : Prop where
  grammar : s.grammar.Learned s'.grammar
  graph : s.graph.Noted s'.graph

theorem Noted.refl (s : Session) : s.Noted s := ⟨.refl _, .refl _⟩

theorem Noted.trans {s₁ s₂ s₃ : Session} (h : s₁.Noted s₂) (h' : s₂.Noted s₃) : s₁.Noted s₃ :=
  ⟨h.grammar.trans h'.grammar, h.graph.trans h'.graph⟩

theorem Noted.subsumes {s s' : Session} (h : s.Noted s') (t u : TypeId) :
    s.Noted (s'.ask fun l => l.subsumes t u).2 where
  grammar := h.grammar.trans (Grammar.learned_of_lattice _ fun hl =>
    ⟨hl.subsumes t u, Lattice.hierarchy_subsumes ..⟩)
  graph := h.graph

theorem noted_subsumeTurn {s s' : Session} (h : s.Noted s') (task : SubsumeTask) :
    s.Noted (s'.subsumeTurn task).state := by
  cases task with
  | missing => exact h
  | compare a b =>
    simp only [subsumeTurn]
    split
    · split <;> exact h
    · have hpaired : s.Noted (s'.mapGraph (·.setForward a b)) :=
        ⟨h.grammar, h.graph.setForward a b⟩
      split <;> exact hpaired.subsumes ..

theorem noted_equalTurn {g g' : Graph} (hg : g.Noted g') (pair : NodeId × NodeId) :
    g.Noted (equalTurn g' pair).state := by
  unfold equalTurn
  dsimp only
  split
  · split <;> exact (hg.setForward ..).setForward ..
  · split <;> exact hg

theorem noted_cycleTurn {g g' : Graph} (hg : g.Noted g') (task : CycleTask) :
    g.Noted (cycleTurn g' task).state := by
  cases task with
  | leave n => exact hg.setCopyMark ..
  | enter n =>
    simp only [cycleTurn]
    split
    · exact (hg.setVisits ..).setCopyMark ..
    · split <;> exact hg

theorem noted_countTurn {g : Graph} (times : Nat) {state : Graph × Nat} (hg : g.Noted state.1)
    (n : NodeId) : g.Noted (countTurn times state n).state.1 := by
  obtain ⟨g', count⟩ := state
  simp only [countTurn]
  split
  · exact hg
  · exact hg.setVisits ..

end Session

namespace Relating

section Turns

variable {s : Session} {r : Relating} (hr : s.Noted r.session)
include hr

theorem noted_orHalt {k : Relating → Turn Relating RelateTask Unit}
    (hk : ∀ r : Relating, s.Noted r.session → s.Noted (k r).state.session) :
    s.Noted (r.orHalt k).state.session := by
  unfold orHalt
  split
  · exact hr
  · exact hk r hr

theorem noted_dropFirst (a : NodeId) (kind : FailureKind) : s.Noted (r.dropFirst a kind).session :=
  ⟨hr.grammar, hr.graph⟩

theorem noted_dropSecond (a : NodeId) (kind : FailureKind) :
    s.Noted (r.dropSecond a kind).session :=
  ⟨hr.grammar, hr.graph⟩

theorem noted_pairFirst (a b : NodeId) : s.Noted (r.pairFirst a b).2.session := by
  obtain ⟨session, relation⟩ := r
  simp only [pairFirst]
  split
  · split
    · exact ⟨hr.grammar, hr.graph.setForward ..⟩
    · split
      · exact hr
      · exact noted_dropFirst hr ..
  · exact hr

theorem noted_pairSecond (a b : NodeId) : s.Noted (r.pairSecond a b).2.session := by
  obtain ⟨session, relation⟩ := r
  simp only [pairSecond]
  split
  · split
    · exact ⟨hr.grammar, hr.graph.setCopyMark ..⟩
    · split
      · exact hr
      · exact noted_dropSecond hr ..
    · exact noted_dropSecond hr ..
  · exact hr

theorem noted_compareTypes (a b : NodeId) {k : Relating → Turn Relating RelateTask Unit}
    (hk : ∀ r : Relating, s.Noted r.session → s.Noted (k r).state.session) :
    s.Noted (r.compareTypes a b k).state.session := by
  obtain ⟨session, relation⟩ := r
  simp only [compareTypes]
  split
  · exact hk _ hr
  · refine noted_orHalt ?_ fun r hr => noted_orHalt ?_ hk
    · split
      · exact hr.subsumes ..
      · exact noted_dropFirst (hr.subsumes ..) ..
    · split
      · exact hr.subsumes ..
      · exact noted_dropSecond (hr.subsumes ..) ..

theorem noted_turn (task : RelateTask) : s.Noted (r.turn task).state.session := by
  cases task with
  | onlyFirst a =>
    exact noted_orHalt (r := r.dropFirst a .feature) (k := (.next · []))
      (noted_dropFirst hr a .feature) fun _ hr => hr
  | onlySecond a =>
    exact noted_orHalt (r := r.dropSecond a .feature) (k := (.next · []))
      (noted_dropSecond hr a .feature) fun _ hr => hr
  | compare a b =>
    have hfirst := noted_pairFirst hr a b
    simp only [turn]
    split
    · rename_i heq
      rw [heq] at hfirst
      exact hfirst
    · rename_i heq
      rw [heq] at hfirst
      refine noted_orHalt hfirst fun r hr => ?_
      have hsecond := noted_pairSecond hr a b
      split
      · rename_i heq
        rw [heq] at hsecond
        exact hsecond
      · rename_i heq
        rw [heq] at hsecond
        exact noted_orHalt hsecond fun r hr => noted_compareTypes hr _ _ fun r hr => hr

end Turns

end Relating

namespace Session

/-! ## Whole walks that only note -/

/-- The session after a walk that only noted, its episode ended. -/
def Notes (s s' : Session) : Prop := ∃ t, s.Noted t ∧ s' = t.invalidate

theorem Notes.of_graph {s : Session} {g : Graph} (h : s.graph.Noted g) :
    s.Notes (s.mapGraph fun _ => g.invalidate) :=
  ⟨⟨s.grammar, g, s.failures⟩, ⟨.refl _, h⟩, rfl⟩

theorem Notes.stamped {s s' : Session} (h : s.Notes s') (hs : s.graph.Stamped) :
    s'.graph.Stamped ∧ s'.AtRest := by
  obtain ⟨t, ht, rfl⟩ := h
  exact (ht.graph.stamped hs).invalidate

variable (s : Session) (a b root : NodeId)

theorem notes_subsumes : s.Notes (s.subsumes a b).2 := by
  have hrun := Agenda.state_run (P := fun t : Session => s.Noted t)
    (fun task ht => noted_subsumeTurn ht task) s.graph.weight [.compare a b] (s := s) (.refl _)
  unfold subsumes
  split <;> rename_i heq <;> rw [heq] at hrun <;> exact ⟨_, hrun, rfl⟩

theorem notes_relate : s.Notes (s.relate a b).2 :=
  ⟨_, Agenda.state_run (P := fun r : Relating => s.Noted r.session)
    (fun task hr => Relating.noted_turn hr task) _ _ ⟨.refl _, .refl _⟩, rfl⟩

theorem notes_equal : s.Notes (s.equal a b).2 := by
  have hrun := Agenda.state_run (P := fun g => s.graph.Noted g)
    (fun task hg => noted_equalTurn hg task) s.graph.weight [(a, b)] (.refl _)
  unfold equal
  dsimp only
  split <;> rename_i heq <;> rw [heq] at hrun <;> exact .of_graph hrun

theorem notes_cyclic : s.Notes (s.cyclic root).2 := by
  have hrun := Agenda.state_run (P := fun g => s.graph.Noted g)
    (fun task hg => noted_cycleTurn hg task) s.graph.weight [.enter root] (.refl _)
  unfold cyclic
  dsimp only
  split <;> rename_i heq <;> rw [heq] at hrun <;> exact .of_graph hrun

theorem notes_countRepeated (times : Nat) : s.Notes (s.countRepeated times root).2 :=
  .of_graph (Agenda.state_run (P := fun state : Graph × Nat => s.graph.Noted state.1)
    (fun n hg => noted_countTurn times hg n) _ _ (.refl _))

end Session

end FeatureLogic
