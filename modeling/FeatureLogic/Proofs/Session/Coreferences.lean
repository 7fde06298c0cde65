import FeatureLogic.Proofs.Notation.Pieces
import FeatureLogic.Proofs.Session.Counting

/-!
Coreferences. The count of shared nodes and the printer each go through the structure on their own;
both find the nodes to which more than one edge leads, so the number that is counted is the number
of coreferences that are numbered in the text (`Session.sharedCount_eq_definitions`).
-/

open Relation

namespace FeatureLogic.Session

open Notation

/-- The pieces of the text of the structure below a node. -/
def pieces (s : Session) (root : NodeId) : List Piece := (s.scene root).allPieces root

/-- The printer numbers the shared nodes. -/
theorem isShared_iff {s : Session} (hs : s.graph.Linked) {root : Nat} (hroot : root < s.graph.size)
    {m : NodeId} : s.graph.view.Reach (s.graph.deref root) m ∧ (s.scene root).isShared m = true ↔
      s.graph.view.Shared (s.graph.deref root) m := by
  refine and_congr_right fun hm => ?_
  have hsize : ∀ ⦃n : Nat⦄, s.graph.view.Reach (s.graph.deref root) n → n < s.graph.size :=
    fun _ => hs.reach_lt hroot
  rw [Scene.isShared, decide_eq_true_iff]
  simp only [scene, getD_arrivals hs hroot (hsize hm), Layout.ncard_incoming hsize,
    Graph.currentTargets_eq, eq_comm (a := m)]
  omega

/-- In every session, whether an episode is open or not, the number of shared nodes that is counted
is the number of nodes of the structure of the episode to which at least two edges lead, the root
counting as having one more. It is also the number of coreferences that get a number in the text.
These are one, two and so on, in the order in which they first come up, and what stands in place of
a structure is a number that was given before. -/
theorem sharedCount_eq_definitions {s : Session} (hs : s.Arises) {root : Nat}
    (hroot : root < s.graph.size) :
    (s.sharedCount root).1 = {m | s.graph.view.Shared (s.graph.deref root) m}.ncard ∧
    s.print root = render (s.pieces root) ∧
    definitions (s.pieces root) = List.range' 1 (s.sharedCount root).1 ∧
    ∀ {number before after}, s.pieces root = before ++ .reference number :: after →
      number ∈ definitions before := by
  have hlinked := hs.closed.graph
  have hscene := sound_scene hlinked hroot
  have hfuel : 2 * s.graph.weight ≤ 2 * s.graph.weight := Nat.le_refl _
  have hcount := hscene.count_eq hfuel
  have hset : {n | (s.scene root).graph.view.Reach ((s.scene root).graph.deref root) n ∧
      (s.scene root).isShared n = true} = {m | s.graph.view.Shared (s.graph.deref root) m} :=
    Set.ext fun m => isShared_iff hlinked hroot
  rw [hset, ← sharedCount_eq_ncard hs hroot] at hcount
  have hnumbered := (s.scene root).numbered_run (2 * s.graph.weight)
    (Scene.counted_start s.graph.size) [.node (s.graph.deref root)]
  obtain ⟨k, hdefinitions, hk⟩ := hnumbered.definitions_eq
  have hall : k = (s.sharedCount root).1 := by
    rw [← hcount, ← Nat.zero_add k]
    exact hk.symm
  refine ⟨sharedCount_eq_ncard hs hroot, ?_, hall ▸ hdefinitions, fun hsplit => ?_⟩
  · rw [print_eq_run hscene hfuel, Scene.text_run, String.empty_append]
    rfl
  · obtain ⟨hpos, hle | hmem⟩ := hnumbered.of_reference hsplit
    · exact absurd hpos (Nat.not_lt.2 hle)
    · exact hmem

/-- The node on the cycle has its own edge and counts as having one more, and it gets the one number
that is printed. -/
theorem sharedCount_eq_definitions_knotted : knotted.Arises ∧ 4 < knotted.graph.size ∧
    knotted.graph.deref 5 = 4 ∧ (knotted.sharedCount 4).1 = 1 ∧
    {m | knotted.graph.view.Shared (knotted.graph.deref 4) m}.ncard = 1 ∧
    knotted.print 4 = "#1[*top* F #1]" ∧ render (knotted.pieces 4) = "#1[*top* F #1]" ∧
    definitions (knotted.pieces 4) = [1] := by
  have hroot : 4 < knotted.graph.size := by decide +kernel
  have hcount : (knotted.sharedCount 4).1 = 1 := by decide +kernel
  have hprint : knotted.print 4 = "#1[*top* F #1]" := by decide +kernel
  obtain ⟨hshared, hrender, hdefinitions, -⟩ := sharedCount_eq_definitions arises_knotted hroot
  rw [hcount] at hshared hdefinitions
  exact ⟨arises_knotted, hroot, by decide +kernel, hcount, hshared.symm, hprint,
    hrender.symm.trans hprint, hdefinitions⟩

end FeatureLogic.Session
