import FeatureLogic.Proofs.Sample
import FeatureLogic.Proofs.Session.Editing

/-!
Restriction in place. The restrictor is gone along with the structure: every path that is left of
the structure leads to a node whose edges are kept at the cursor to which the path leads
(`Session.restrict_everywhere`). A node may be come to at many cursors; it loses edges at each of
them and gets none back.
-/

open Finset

namespace FeatureLogic

namespace Restrictor

variable (r : Restrictor)

/-! ## Cursors -/

/-- Where a walk is in the rules after a path. -/
def cursorAt (path : List FeatureId) : RestrictCursor := path.foldl r.descend r.start

/-- The cursor below the rules, and those at a rule there is. -/
def cursors : Finset RestrictCursor :=
  insert .open ((range ((r.rules?.map RestrictRules.size).getD 0)).image .at)

theorem card_cursors_le : r.cursors.card ≤ r.cursorBound := by
  refine (card_insert_le _ _).trans ?_
  rw [cursorBound, Nat.add_comm]
  exact Nat.add_le_add_left (card_image_le.trans (card_range _).le) 1

theorem cursorBound_pos : 0 < r.cursorBound := by
  rw [cursorBound, Nat.add_comm]
  exact Nat.succ_pos _

/-- At each cursor there is a turn to spare besides one for each edge. -/
theorem cursorBound_mul_weight (g : Graph) :
    r.cursorBound + r.cursorBound * ∑ n ∈ range g.size, (g.edges n).length ≤
      r.cursorBound * g.weight := by
  have hweight : 1 + ∑ n ∈ range g.size, (g.edges n).length ≤ g.weight := by
    rw [Graph.weight_eq]
    exact Nat.add_le_add_left (sum_le_sum fun n _ => by omega) 1
  calc r.cursorBound + r.cursorBound * ∑ n ∈ range g.size, (g.edges n).length
      = r.cursorBound * (1 + ∑ n ∈ range g.size, (g.edges n).length) := by
        rw [Nat.mul_add, Nat.mul_one]
    _ ≤ r.cursorBound * g.weight := Nat.mul_le_mul_left _ hweight

/-- A cursor that a walk can be at: there is such a rule, or nothing is kept. -/
def Within (cursor : RestrictCursor) : Prop :=
  cursor ∈ r.cursors ∨ ∀ f, r.keeps cursor f = false

theorem within_at {rules : RestrictRules} (hr : r.rules? = some rules) (id : Nat) :
    r.Within (.at id) := by
  by_cases hid : id < rules.size
  · refine .inl (mem_insert_of_mem (mem_image_of_mem _ (mem_range.2 ?_)))
    simpa [hr] using hid
  · -- a rule that is missing is read as one that keeps the features of its children, and it has none
    have hrule : rules.rule id = .plain .keep := by
      rw [RestrictRules.rule, Array.getD_eq_getD_getElem?, Array.getElem?_eq_none (by
        simpa [RestrictRules.size] using hid)]
      rfl
    refine .inr fun f => ?_
    simp [keeps, ruleAt?, hr, hrule, childMode?, RestrictRule.child?, RestrictRule.plain]

theorem within_start : r.Within r.start := by
  unfold start
  cases hr : r.rules? with
  | none => exact .inl (mem_insert_self ..)
  | some rules => exact r.within_at hr rules.root

theorem within_descend (cursor : RestrictCursor) (f : FeatureId) :
    r.Within (r.descend cursor f) := by
  unfold descend
  split
  · exact .inl (mem_insert_self ..)
  · rename_i child hchild
    cases hr : r.rules? with
    | none => simp [ruleAt?, hr] at hchild
    | some rules => exact r.within_at hr child

end Restrictor

namespace Pruning

/-! ## What is left to be come to -/

section Remaining

/-- The work at places of a graph that a restriction has not come to. -/
def remaining (r : Restrictor) (size : Nat) (work : NodeId → Nat) (p : Pruning) : Nat :=
  ∑ place ∈ range size ×ˢ r.cursors with place ∉ p.seen, work place.1

variable {r : Restrictor} {p p' : Pruning}

theorem mem_seen_mark (n : NodeId) (cursor : RestrictCursor) (place : NodeId × RestrictCursor) :
    place ∈ (p.mark n cursor).seen ↔ place = (n, cursor) ∨ place ∈ p.seen := by
  rw [mark, Std.HashSet.mem_insert, beq_iff_eq, eq_comm]

theorem remaining_mono (r : Restrictor) (size : Nat) (work : NodeId → Nat)
    (h : ∀ place ∈ p.seen, place ∈ p'.seen) :
    remaining r size work p' ≤ remaining r size work p :=
  sum_le_sum_of_subset (monotone_filter_right _ fun place _ => mt (h place))

theorem remaining_mark {size : Nat} (work : NodeId → Nat) {n : NodeId} {cursor : RestrictCursor}
    (h : ∀ place, place ∈ p'.seen ↔ place = (n, cursor) ∨ place ∈ p.seen)
    (hnew : (n, cursor) ∉ p.seen) (hn : n < size) (hcursor : cursor ∈ r.cursors) :
    remaining r size work p' + work n = remaining r size work p := by
  have hinsert : (range size ×ˢ r.cursors).filter (· ∉ p.seen) =
      insert (n, cursor) ((range size ×ˢ r.cursors).filter (· ∉ p'.seen)) := by
    ext place
    by_cases hplace : place = (n, cursor)
    · subst hplace
      simp [hn, hcursor, hnew]
    · simp [h, hplace]
  have hnot : (n, cursor) ∉ (range size ×ˢ r.cursors).filter (· ∉ p'.seen) := by simp [h]
  rw [remaining, remaining, hinsert, sum_insert hnot, Nat.add_comm]

theorem remaining_le (r : Restrictor) (size : Nat) (work : NodeId → Nat) (p : Pruning) :
    remaining r size work p ≤ r.cursorBound * ∑ n ∈ range size, work n := by
  calc remaining r size work p
      ≤ ∑ place ∈ range size ×ˢ r.cursors, work place.1 := sum_le_sum_of_subset (filter_subset ..)
    _ = r.cursors.card * ∑ n ∈ range size, work n := by
      rw [sum_product, mul_sum]
      exact sum_congr rfl fun n _ => sum_const_nat fun _ _ => rfl
    _ ≤ r.cursorBound * ∑ n ∈ range size, work n := Nat.mul_le_mul_right _ r.card_cursors_le

end Remaining

/-! ## The walk -/

section Walk

variable {r : Restrictor} {s : Session} {root : NodeId} {p p' : Pruning}
  {place : NodeId × RestrictCursor} {waiting places : List (NodeId × RestrictCursor)}

/-- What it is to come to a place for the first time: its node keeps some of its edges, which lead to
further places, and its type gets more general. -/
structure Visits (r : Restrictor) (p : Pruning) (place : NodeId × RestrictCursor) (p' : Pruning) :
    Prop where
  mem_seen : ∀ place', place' ∈ p'.seen ↔ place' = place ∨ place' ∈ p.seen
  edges_eq : ∀ n, p'.session.graph.edges n = if n = place.1
    then (p.session.graph.edges n).filter fun e => r.keeps place.2 e.feature
    else p.session.graph.edges n
  type_eq : ∀ n, p'.session.graph.type n = if n = place.1 ∧ n < p.session.graph.size
    then (r.generalize place.2 (p.session.graph.type n) p.session.grammar.lattice).1
    else p.session.graph.type n
  grammar : p.session.grammar.Learned p'.session.grammar
  size_eq : p'.session.graph.size = p.session.graph.size

theorem turn_cases (ht : turn r p place = .next p' places) :
    (place ∈ p.seen ∧ p' = p ∧ places = []) ∨
    (place ∉ p.seen ∧ Visits r p place p' ∧ places = (p'.session.graph.edges place.1).map
      fun e => (e.target, r.descend place.2 e.feature)) := by
  obtain ⟨n, cursor⟩ := place
  simp only [turn] at ht
  split at ht
  · rename_i hseen
    cases ht
    exact .inl ⟨Std.HashSet.contains_iff_mem.1 hseen, rfl, rfl⟩
  · rename_i hseen
    have hedges : ∀ m, ((p.mark n cursor).generalize r n cursor).session.graph.edges m =
        p.session.graph.edges m := fun m => Graph.edges_setType ..
    have hsize : ((p.mark n cursor).generalize r n cursor).session.graph.size =
        p.session.graph.size := Graph.size_setType ..
    rw [hedges] at ht
    cases ht
    have hvisits : Visits r p (n, cursor) (((p.mark n cursor).generalize r n cursor).mapGraph
        (·.setEdges n ((p.session.graph.edges n).filter fun e => r.keeps cursor e.feature))) := by
      refine ⟨mem_seen_mark n cursor, fun m => ?_, fun m => ?_,
        Grammar.learned_of_lattice _ (r.sound_generalize cursor _), ?_⟩
      · refine (Graph.edges_setEdges ..).trans ?_
        rw [hedges, hsize]
        by_cases hm : m = n
        · subst hm
          rcases Nat.lt_or_ge m p.session.graph.size with hlt | hle
          · rw [if_pos ⟨rfl, hlt⟩, if_pos rfl]
          · rw [if_neg fun h => absurd h.2 (Nat.not_lt.2 hle), if_pos rfl, Graph.edges_of_le hle,
              List.filter_nil]
        · rw [if_neg fun h => hm h.1.symm, if_neg hm]
      · have htype : (((p.mark n cursor).generalize r n cursor).mapGraph (·.setEdges n
            ((p.session.graph.edges n).filter fun e => r.keeps cursor e.feature))).session.graph.type
              m = if n = m ∧ n < p.session.graph.size
                then (r.generalize cursor (p.session.graph.type n) p.session.grammar.lattice).1
                else p.session.graph.type m :=
          (Graph.type_setEdges ..).trans (Graph.type_setType ..)
        rw [htype]
        by_cases hm : m = n
        · subst hm
          simp only [true_and]
        · rw [if_neg fun h => hm h.1.symm, if_neg fun h => hm h.1]
      · exact (Graph.size_setEdges ..).trans hsize
    refine .inr ⟨fun hmem => hseen (Std.HashSet.contains_iff_mem.2 hmem), hvisits, ?_⟩
    rw [hvisits.edges_eq, if_pos rfl]

/-- What holds between two turns of a restriction that began in `s` at the root: where it came to,
edges are kept and it will come to what they lead to. -/
structure Restricts (r : Restrictor) (s : Session) (root : NodeId) (p : Pruning)
    (waiting : List (NodeId × RestrictCursor)) : Prop where
  begun : (root, r.start) ∈ p.seen ∨ (root, r.start) ∈ waiting
  keeps : ∀ {n cursor e}, (n, cursor) ∈ p.seen → e ∈ p.session.graph.edges n →
    r.keeps cursor e.feature = true ∧ ((e.target, r.descend cursor e.feature) ∈ p.seen ∨
      (e.target, r.descend cursor e.feature) ∈ waiting)
  sublist : ∀ n, (p.session.graph.edges n).Sublist (s.graph.edges n)
  type_le : ∀ n, s.hierarchy.Le (s.graph.type n) (p.session.graph.type n)
  grammar : s.grammar.Learned p.session.grammar
  size_eq : p.session.graph.size = s.graph.size
  within : ∀ place ∈ waiting, r.Within place.2

theorem restricts_start (s : Session) (root : NodeId) (r : Restrictor) :
    Restricts r s root (.start s) [(root, r.start)] where
  begun := .inr (List.mem_singleton_self _)
  keeps h := absurd h Std.HashSet.not_mem_empty
  sublist _ := .refl _
  type_le _ := Hierarchy.le_refl
  grammar := .refl _
  size_eq := rfl
  within := List.forall_mem_singleton.2 r.within_start

/-- A place that is come to is done with, and the places behind it wait. -/
theorem come_of_cons (places : List (NodeId × RestrictCursor)) (hplace : place ∈ p'.seen)
    (hseen : ∀ q ∈ p.seen, q ∈ p'.seen) (q : NodeId × RestrictCursor)
    (h : q ∈ p.seen ∨ q ∈ place :: waiting) : q ∈ p'.seen ∨ q ∈ places ++ waiting := by
  rcases h with h | h
  · exact .inl (hseen q h)
  · rcases List.mem_cons.1 h with rfl | h
    · exact .inl hplace
    · exact .inr (List.mem_append_right _ h)

theorem Restricts.visit (hs : s.grammar.Sound) (h : Restricts r s root p (place :: waiting))
    (hvisits : Visits r p place p') : Restricts r s root p' ((p'.session.graph.edges place.1).map
      (fun e => (e.target, r.descend place.2 e.feature)) ++ waiting) := by
  have hsublist : ∀ n, (p'.session.graph.edges n).Sublist (p.session.graph.edges n) := by
    intro n
    rw [hvisits.edges_eq]
    split
    · exact List.filter_sublist
    · exact .refl _
  have hcome : ∀ q, q ∈ p.seen ∨ q ∈ place :: waiting → q ∈ p'.seen ∨
      q ∈ (p'.session.graph.edges place.1).map (fun e => (e.target, r.descend place.2 e.feature)) ++
        waiting :=
    come_of_cons _ ((hvisits.mem_seen place).2 (.inl rfl)) fun q hq =>
      (hvisits.mem_seen q).2 (.inr hq)
  -- the edges that are left lead to places now waiting, and the type is a generalization
  refine ⟨hcome _ h.begun, fun {n cursor e} hmem he => ?_, fun n => (hsublist n).trans (h.sublist n),
    fun n => ?_, h.grammar.trans hvisits.grammar, hvisits.size_eq.trans h.size_eq, ?_⟩
  · rcases (hvisits.mem_seen _).1 hmem with rfl | hmem
    · refine ⟨?_, .inr (List.mem_append_left _ (List.mem_map.2 ⟨e, he, rfl⟩))⟩
      rw [hvisits.edges_eq, if_pos rfl] at he
      exact (List.mem_filter.1 he).2
    · exact (h.keeps hmem ((hsublist n).subset he)).imp_right (hcome _)
  · rw [hvisits.type_eq]
    split
    · have hlattice := h.grammar.sound hs.lattice
      have hle := Restrictor.le_generalize (r := r) place.2 (p.session.graph.type n) hlattice.1
      have horder : p.session.grammar.lattice.hierarchy = s.hierarchy := hlattice.2
      rw [horder] at hle
      exact hs.lattice.hierarchy.le_trans (h.type_le n) hle
    · exact h.type_le n
  · intro q hq
    rcases List.mem_append.1 hq with hq | hq
    · obtain ⟨e, -, rfl⟩ := List.mem_map.1 hq
      exact r.within_descend place.2 e.feature
    · exact h.within q (List.mem_cons_of_mem _ hq)

theorem keeps_restricts (hs : s.grammar.Sound) :
    Agenda.Keeps (turn r) (Restricts r s root) where
  next {p place waiting p' places} h ht := by
    obtain ⟨hseen, rfl, rfl⟩ | ⟨-, hvisits, rfl⟩ := turn_cases ht
    · have hcome : ∀ q, q ∈ p'.seen ∨ q ∈ place :: waiting → q ∈ p'.seen ∨ q ∈ [] ++ waiting :=
        come_of_cons [] hseen fun q hq => hq
      exact { h with
        begun := hcome _ h.begun
        keeps := fun hmem he => (h.keeps hmem he).imp_right (hcome _)
        within := fun q hq => h.within q (List.mem_cons_of_mem _ hq) }
    · exact h.visit hs hvisits

/-- A restriction comes to its end within the turns that it is allowed. -/
theorem run_turn_ne_spent (hs : s.grammar.Sound) (root : NodeId) (r : Restrictor) (p : Pruning)
    (waiting : List (NodeId × RestrictCursor)) :
    Agenda.run (turn r) (r.cursorBound * s.graph.weight) (.start s) [(root, r.start)] ≠
      .spent p waiting := by
  -- every turn takes a place off the list or marks a new one, which is paid for with its edges
  refine (keeps_restricts hs).run_ne_spent (fun p places => places.length +
    remaining r s.graph.size (fun n => (s.graph.edges n).length) p) ?_ ?_
    (restricts_start s root r) ?_ p waiting
  · intro p place waiting _
    simp only [List.length_cons]
    omega
  · intro p place waiting p' places h ht
    obtain ⟨-, rfl, rfl⟩ | ⟨hnew, hvisits, rfl⟩ := turn_cases ht
    · simp
    · have hsublist := (h.visit hs hvisits).sublist place.1
      simp only [List.length_append, List.length_map, List.length_cons]
      by_cases hplace : place.1 < s.graph.size ∧ place.2 ∈ r.cursors
      · have hleft := remaining_mark (fun n => (s.graph.edges n).length) hvisits.mem_seen hnew
          hplace.1 hplace.2
        have := hsublist.length_le
        omega
      · -- a place without a node or without a rule has no edges that are kept
        have hnone : p'.session.graph.edges place.1 = [] := by
          rw [hvisits.edges_eq, if_pos rfl, List.filter_eq_nil_iff]
          intro e he
          rcases h.within place (List.mem_cons_self ..) with hcursor | hkeeps
          · rw [Graph.edges_of_le (h.size_eq ▸ Nat.le_of_not_lt fun hn => hplace ⟨hn, hcursor⟩)] at he
            cases he
          · simp [hkeeps]
        have hleft := remaining_mono r s.graph.size (fun n => (s.graph.edges n).length)
          fun q hq => (hvisits.mem_seen q).2 (.inr hq)
        rw [hnone, List.length_nil]
        omega
  · have hsum := remaining_le r s.graph.size (fun n => (s.graph.edges n).length) (.start s)
    have hweight := r.cursorBound_mul_weight s.graph
    have hbound := r.cursorBound_pos
    simp only [List.length_singleton]
    omega

/-- When no place waits, what is left of a path has been come to at its cursor. -/
theorem Restricts.mem_seen_of_follow (h : Restricts r s root p []) {path : List FeatureId}
    {n : NodeId} (hn : p.session.graph.follow? root path = some n) :
    (n, r.cursorAt path) ∈ p.seen := by
  have hall : ∀ (path : List FeatureId) (m : NodeId) (cursor : RestrictCursor),
      (m, cursor) ∈ p.seen → p.session.graph.follow? m path = some n →
      (n, path.foldl r.descend cursor) ∈ p.seen := by
    intro path
    induction path with
    | nil =>
      rintro m cursor hm ⟨⟩
      exact hm
    | cons f rest ih =>
      intro m cursor hm hn
      obtain ⟨m', hm', hn⟩ := Option.bind_eq_some_iff.1 hn
      have hedge := (h.keeps hm (Edges.mem_of_target? hm')).2
      exact ih m' _ (hedge.resolve_right List.not_mem_nil) hn
  exact hall path root r.start (h.begun.resolve_right List.not_mem_nil) hn

end Walk

end Pruning

namespace Session

/-- Restriction in place comes to every position. Every path that is left below the root leads to a
node whose edges are all kept at the cursor where the path leads to; edges were taken away and not
added or changed, and the types became more general or stayed the same. -/
theorem restrict_everywhere {s : Session} (hs : s.Sound) (root : NodeId) (r : Restrictor) :
    (∀ path n, (s.restrict root r).graph.follow? root path = some n →
      ∀ e ∈ (s.restrict root r).graph.edges n, r.keeps (r.cursorAt path) e.feature = true) ∧
    (∀ n, ((s.restrict root r).graph.edges n).Sublist (s.graph.edges n)) ∧
    ∀ n, (s.grammar.lattice.subsumes ((s.restrict root r).graph.type n) (s.graph.type n)).1 =
      true := by
  have hdone : Pruning.Restricts r s root (Agenda.run (Pruning.turn r)
      (r.cursorBound * s.graph.weight) (.start s) [(root, r.start)]).state [] := by
    have hstart := Pruning.restricts_start s root r
    cases hrun : Agenda.run (Pruning.turn r) (r.cursorBound * s.graph.weight) (.start s)
        [(root, r.start)] with
    | done p => exact (Pruning.keeps_restricts hs.grammar).done hstart hrun
    | halted p answer => exact answer.elim
    | spent p waiting => exact absurd hrun (Pruning.run_turn_ne_spent hs.grammar root r p waiting)
  refine ⟨fun path n hn e he => ?_, fun n => ?_, fun n => ?_⟩
  · rw [restrict, invalidate, mapGraph, Graph.follow?_invalidate] at hn
    rw [restrict, invalidate, mapGraph, Graph.edges_invalidate] at he
    exact (hdone.keeps (hdone.mem_seen_of_follow hn) he).1
  · rw [restrict, invalidate, mapGraph, Graph.edges_invalidate]
    exact hdone.sublist n
  · rw [restrict, invalidate, mapGraph, Graph.type_invalidate, hs.grammar.lattice.subsumes_iff]
    exact hdone.type_le n

/-- Two nodes that lead to each other and to themselves. -/
def knot : Session := Sample.session (Sample.grammar [] [])
  [(.of 3, [⟨0, 1⟩, ⟨1, 0⟩]), (.of 3, [⟨0, 0⟩, ⟨1, 1⟩])]

/-- Rules in a circle: at every other node the first feature goes, and types get general. -/
def alternating : Restrictor := .tree .empty ⟨#[⟨.leave, [.of 1], [⟨0, 1⟩, ⟨1, 0⟩]⟩,
  ⟨.leave, [], [⟨0, 2⟩, ⟨1, 0⟩]⟩, .plain .delete], 0⟩

theorem restrict_everywhere_knot : knot.Sound ∧
    (∀ path n, (knot.restrict 0 alternating).graph.follow? 0 path = some n →
      ∀ e ∈ (knot.restrict 0 alternating).graph.edges n,
        alternating.keeps (alternating.cursorAt path) e.feature = true) ∧
    (∀ n, ((knot.restrict 0 alternating).graph.edges n).Sublist (knot.graph.edges n)) ∧
    ∀ n, (knot.grammar.lattice.subsumes ((knot.restrict 0 alternating).graph.type n)
      (knot.graph.type n)).1 = true := by
  have hsound : knot.Sound := (Sample.sound_session Sample.sound_grammar_nil (by decide)).1
  exact ⟨hsound, restrict_everywhere hsound 0 alternating⟩

end Session

end FeatureLogic
