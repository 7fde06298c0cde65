import FeatureLogic.Proofs.Session.Unvisited
import FeatureLogic.Proofs.Session.Surveys
import FeatureLogic.Proofs.Session.Whole

/-!
Cycles. The search for a cycle is, turn by turn, the walk that copies everything
(`Session.inStep_cycleTurn_copyTurn`), though the one tells nodes apart by visits and the other by
their copies. So there is a cycle below a node just when there is no copy of what is below it
(`Session.cyclic_iff_error`).
-/

open Relation

namespace FeatureLogic

/-- What a search has noted on a node, its visits and its mark, and what a copy has noted on it. -/
inductive SameMark : Nat → CopyMark → CopyMark → Prop
  | blank {mark : CopyMark} : SameMark 0 mark .blank
  | underway {visits : Nat} (h : visits ≠ 0) : SameMark visits .underway .underway
  | copied {visits : Nat} {k : NodeId} (h : visits ≠ 0) : SameMark visits .blank (.copied k)

theorem SameMark.ne_zero {visits : Nat} {mark : CopyMark} (h : SameMark visits mark .underway) :
    visits ≠ 0 := by
  cases h with
  | underway h => exact h

/-- The same task of a search and of a copy. -/
inductive SameTask : CycleTask → CopyTask → Prop
  | enter {n : NodeId} {cursor : RestrictCursor} : SameTask (.enter n) (.enter n cursor)
  | leave {n : NodeId} {type : TypeId} {kept : List Edge} :
    SameTask (.leave n) (.finish n type kept)

/-- A search and a copy have come to the same nodes and are through with the same ones. -/
def Graph.SameMarks (g k : Graph) : Prop :=
  ∀ n : Nat, SameMark (g.visits n) (g.copyMark n) (k.copyMark n)

namespace Session

open FeatureLogic.Graph

theorem sameMarks_start {g : Graph} (hg : g.Linked) (hvisits : g.Unvisited) : g.SameMarks g :=
  fun n => by
    rw [hvisits, hg.copyMark_eq]
    exact .blank

section SameMarks

variable {s₀ s : Session} {g : Graph} {n : Nat} (hsurveyed : s₀.graph.Surveyed g)
  (hbeside : Beside s₀ s) (hsame : g.SameMarks s.graph) (hn : n < s₀.graph.size)
include hsurveyed hbeside hsame hn

/-- Both come to a node for the first time. -/
theorem sameMarks_enter : ((g.setVisits n 1).setCopyMark n .underway).SameMarks
    (s.graph.setCopyMark n .underway) := fun m => by
  have hg : n < g.size := hsurveyed.size_eq ▸ hn
  rw [visits_setCopyMark, visits_setVisits hg,
    copyMark_setCopyMark m (by rwa [setVisits, size_note]), copyMark_setVisits,
    copyMark_setCopyMark m (hbeside.lt hn)]
  split
  · exact .underway Nat.one_ne_zero
  · exact hsame m

/-- Both are through with a node. -/
theorem sameMarks_leave (hunder : s.graph.copyMark n = .underway) (type : TypeId)
    (edges : List Edge) (k : NodeId) : (g.setCopyMark n .blank).SameMarks
      ((s.graph.add type edges).setCopyMark n (.copied k)) := fun m => by
  have hlt : n < (s.graph.add type edges).size := by
    rw [size_add]
    exact Nat.lt_succ_of_lt (hbeside.lt hn)
  have hpositive := hbeside.stamped.generation_pos
  rw [visits_setCopyMark, copyMark_setCopyMark m (hsurveyed.size_eq ▸ hn : n < g.size),
    copyMark_setCopyMark m hlt, copyMark_add hpositive]
  split
  · rename_i hm
    have hnode := hsame m
    rw [← hm, hunder] at hnode
    rw [← hm]
    exact .copied hnode.ne_zero
  · exact hsame m

end SameMarks

/-- A search and a copy of everything are in step. -/
theorem inStep_cycleTurn_copyTurn {s₀ : Session} (h₀ : s₀.graph.Linked) {root : Nat}
    (hroot : root < s₀.graph.size) : Agenda.InStep cycleTurn (copyTurn unrestricted)
      (Agenda.Abreast (Searching s₀.graph) (Extracting unrestricted s₀ root)
        (fun _ g s => g.SameMarks s.graph) (fun _ => SameTask) ()) := by
  refine Agenda.inStep_of_abreast (keeps_searching h₀) (keeps_extracting h₀ hroot) (fun _ h => h) ()
    fun {_ g task waiting s task' waiting'} hsame htask hg hs => ?_
  have hlt := hg.within task (List.mem_cons_self ..)
  cases htask with
  | @leave n type kept =>
    have hunder := (hs.finish (List.mem_cons_self ..)).2
    exact .next ⟨(), le_rfl,
      sameMarks_leave hg.surveyed hs.beside hsame hlt hunder type _ _, .nil⟩
  | @enter n cursor =>
    have hnode : g.deref n = s.graph.deref n := by
      rw [hg.surveyed.deref_eq, hs.beside.deref_eq h₀]
    have hderef : s.graph.deref n < s₀.graph.size := by
      rw [hs.beside.deref_eq h₀]
      exact h₀.deref_lt hlt
    have hedges : g.currentEdges (s.graph.deref n) = s.graph.currentEdges (s.graph.deref n) := by
      rw [hg.surveyed.currentEdges_eq, hs.beside.currentEdges_eq hderef]
    have hmark := hsame (s.graph.deref n)
    simp only [cycleTurn, copyTurn, hnode, List.foldr_cons_eq_append]
    revert hmark
    generalize hcopy : s.graph.copyMark (s.graph.deref n) = copy
    generalize hvisits : g.visits (s.graph.deref n) = visits
    generalize g.copyMark (s.graph.deref n) = mark
    intro hmark
    -- the marks agree, so both halt, both pass by, or both enter the node
    cases hmark with
    | underway h =>
      rw [if_neg h, if_pos rfl]
      exact .halt
    | copied h =>
      rw [if_neg h, if_neg (by simp)]
      exact .next ⟨(), le_rfl, hsame, .nil⟩
    | blank =>
      rw [if_pos rfl]
      refine .next ⟨(), le_rfl, sameMarks_enter hg.surveyed hs.beside hsame hderef, ?_⟩
      have hkept := ((kept_generalize unrestricted s.graph (s.graph.deref n) cursor
        s.grammar.lattice).whole rfl).2
      refine List.rel_append ?_ (.cons .leave .nil)
      show List.Forall₂ SameTask _ (List.map _ (List.filter _ (s.graph.currentEdges _)))
      rw [hkept, hedges, List.forall₂_map_left_iff, List.forall₂_map_right_iff]
      exact List.forall₂_same.2 fun e _ => .enter

/-- A search finds a cycle just when there is no copy. -/
theorem cyclic_eq_true_iff_error {s : Session} (hs : s.graph.Linked) (hvisits : s.graph.Unvisited)
    {root : Nat} (hroot : root < s.graph.size) :
    (s.cyclic root).1 = true ↔ ∃ e, (s.extract root unrestricted).1 = .error e := by
  have hne := run_cycleTurn_ne_spent hs hroot
  have hends := (inStep_cycleTurn_copyTurn hs hroot).run_of_ne_spent
    ⟨searching_start hroot, extracting_start hs unrestricted root unrestricted.start, (), le_rfl,
      sameMarks_start hs hvisits, .cons .enter .nil⟩ hne
    (run_copyTurn_ne_spent (r := unrestricted) hs hroot unrestricted.start (Nat.le_refl _))
  rw [extract_eq hs hroot unrestricted (Nat.le_refl _)]
  simp only [cyclic]
  revert hne hends
  generalize Agenda.run cycleTurn s.graph.weight s.graph [.enter root] = ending
  generalize Agenda.run (copyTurn unrestricted) _ s [.enter root unrestricted.start] = ending'
  intro hne hends
  cases hends with
  | done => simp
  | halted => simp
  | spent => exact absurd rfl (hne _ _)

/-- Walks that only note leave every node with its committed type and edges. -/
theorem Notes.graph_extends {s s' : Session} (h : s.Notes s') :
    s.graph.Extends s'.graph ∧ s'.graph.size = s.graph.size := by
  obtain ⟨t, ht, rfl⟩ := h
  exact ⟨ht.graph.graph_extends.trans (extends_invalidate _),
    (size_invalidate _).trans ht.graph.size_eq⟩

/-- A copy leaves every node that was there, and without a copy there is no other node. -/
theorem extends_extract {s : Session} (hs : s.graph.Linked) {root : Nat}
    (hroot : root < s.graph.size) (r : Restrictor) :
    s.graph.Extends (s.extract root r).2.graph ∧ ((∃ e, (s.extract root r).1 = .error e) →
      (s.extract root r).2.graph.size = s.graph.size) := by
  rcases extract_cases hs hroot r with
    ⟨s₁, h, heq⟩ | ⟨s₁, n, cursor, waiting, e, h, -, heq⟩ <;> rw [heq]
  · exact ⟨h.beside.extends_start.trans (extends_invalidate _), nofun⟩
  · have hext := h.beside.extends_start
    exact ⟨hext.truncate.trans (extends_invalidate _), fun _ => (size_invalidate _).trans
      ((size_truncate ..).trans (Nat.min_eq_left hext.size_le))⟩

/-- In every session, whether an episode is open or not, a search says that there is a cycle just
when there is no copy, and that is when the structure of the episode has a cycle that can be
reached. Both leave the nodes that there were as they are committed, and without a copy there are no
other nodes. -/
theorem cyclic_iff_error {s : Session} (hs : s.Arises) {root : Nat} (hroot : root < s.graph.size) :
    ((s.cyclic root).1 = true ↔ ∃ e, (s.extract root unrestricted).1 = .error e) ∧
    ((s.cyclic root).1 = true ↔ ∃ n, s.graph.view.Reach (s.graph.deref root) n ∧
      TransGen s.graph.view.Step n n) ∧
    (s.graph.Extends (s.cyclic root).2.graph ∧ (s.cyclic root).2.graph.size = s.graph.size) ∧
    s.graph.Extends (s.extract root unrestricted).2.graph ∧
    ((s.cyclic root).1 = true → (s.extract root unrestricted).2.graph.size = s.graph.size) := by
  have hlinked := hs.closed.graph
  have herror := cyclic_eq_true_iff_error hlinked hs.reached.unvisited hroot
  have hcycle : (∃ e, (s.extract root unrestricted).1 = .error e) ↔
      ¬ s.graph.view.Acyclic (s.graph.deref root) := by
    obtain ⟨answer, s', heq, ⟨k, rfl, hacyclic, -⟩ | ⟨e, rfl, hcyclic⟩⟩ :=
      extract_unrestricted hlinked hroot
    · simp [heq, hacyclic]
    · simp [heq, hcyclic]
  obtain ⟨hext, hsize⟩ := extends_extract hlinked hroot unrestricted
  refine ⟨herror, ?_, (notes_cyclic s root).graph_extends, hext, fun h => hsize (herror.1 h)⟩
  rw [herror, hcycle]
  simp [Layout.Acyclic]

/-- While an episode is open, the node of which two features are shared is on no cycle, and the one
that was unified with its own value is. -/
theorem cyclic_iff_error_knotted : knotted.Arises ∧ 0 < knotted.graph.size ∧
    4 < knotted.graph.size ∧ knotted.graph.deref 5 = 4 ∧ (knotted.cyclic 0).1 = false ∧
    (∀ e, (knotted.extract 0 unrestricted).1 ≠ .error e) ∧ (knotted.cyclic 4).1 = true ∧
    (∃ e, (knotted.extract 4 unrestricted).1 = .error e) ∧
    (knotted.extract 4 unrestricted).2.graph.size = knotted.graph.size := by
  have hfirst : 0 < knotted.graph.size := by decide +kernel
  have hthird : 4 < knotted.graph.size := by decide +kernel
  have htrue : (knotted.cyclic 4).1 = true := by decide +kernel
  obtain ⟨hiff, hcycle, -⟩ := cyclic_iff_error arises_knotted hfirst
  obtain ⟨hiff', -, -, -, hsize⟩ := cyclic_iff_error arises_knotted hthird
  have hfalse : (knotted.cyclic 0).1 ≠ true := fun h => by
    obtain ⟨n, hn, hround⟩ := hcycle.1 h
    exact acyclic_knotted hn hround
  exact ⟨arises_knotted, hfirst, hthird, by decide +kernel, Bool.eq_false_iff.2 hfalse,
    fun e he => hfalse (hiff.2 ⟨e, he⟩), htrue, hiff'.1 htrue, hsize htrue⟩

end Session

end FeatureLogic
