import Mathlib.Data.Set.Card
import FeatureLogic.Proofs.Session.Pruning

/-!
Special restriction. It goes down an edge when no rule speaks at the cursor or when the rule names
the edge. Where a node is never come to at a second cursor while it is gone through at a first one,
what it goes down to loses every edge that the restrictor does not keep
(`Session.restrictSpecial_thorough`).

The walk decides on the edges that a node had when it was come to, and writes back those that it
kept. So it is an invariant of the edges that wait to be written back that they are kept at all
cursors where the node was come to before.
-/

open Relation

namespace FeatureLogic

namespace Restrictor

/-! ## Rules that name their children -/

/-- Rules lead to rules that there are. -/
def Grounded (r : Restrictor) : Prop := ∀ rules, r.rules? = some rules →
  rules.root < rules.size ∧ ∀ rule ∈ rules.rules, ∀ e ∈ rule.children, e.target < rules.size

theorem grounded_simple (deleted : FeatureSet) : (Restrictor.simple deleted).Grounded := by
  intro rules hrules
  cases hrules

variable {r : Restrictor}

theorem at_mem_cursors {rules : RestrictRules} (hr : r.rules? = some rules) {id : Nat}
    (hid : id < rules.size) : RestrictCursor.at id ∈ r.cursors :=
  Finset.mem_insert_of_mem (Finset.mem_image_of_mem _ (Finset.mem_range.2 (by simpa [hr])))

theorem Grounded.start_mem (hr : r.Grounded) : r.start ∈ r.cursors := by
  unfold start
  cases hrules : r.rules? with
  | none => exact Finset.mem_insert_self ..
  | some rules => exact at_mem_cursors hrules (hr rules hrules).1

theorem Grounded.descend_mem (hr : r.Grounded) (cursor : RestrictCursor) (f : FeatureId) :
    r.descend cursor f ∈ r.cursors := by
  unfold descend
  split
  · exact Finset.mem_insert_self ..
  · rename_i child hchild
    obtain ⟨rule, hrule, hchild⟩ := Option.bind_eq_some_iff.1 hchild
    unfold ruleAt? at hrule
    split at hrule
    · rename_i rules id hrules
      cases hrule
      refine at_mem_cursors hrules ?_
      have hmem := Edges.mem_of_target? hchild
      by_cases hid : id < rules.rules.size
      · refine (hr rules hrules).2 (rules.rule id) ?_ _ hmem
        rw [RestrictRules.rule, Array.getD_eq_getD_getElem?, Array.getElem?_eq_getElem hid]
        exact Array.getElem_mem hid
      · rw [RestrictRules.rule, Array.getD_eq_getD_getElem?, Array.getElem?_eq_none (by omega)] at hmem
        cases hmem
    · cases hrule

end Restrictor

namespace Pruning

/-! ## Where the walk goes -/

/-- Whether a special restriction goes down the edges of a feature: no rule speaks at the cursor, or
the rule names the feature. -/
def goesDown (r : Restrictor) (cursor : RestrictCursor) (f : FeatureId) : Bool :=
  (speakingRule? r cursor).all fun rule => (rule.child? f).isSome

/-- Whether a special restriction goes down a path. -/
def goesAlong (r : Restrictor) : RestrictCursor → List FeatureId → Bool
  | _, [] => true
  | cursor, f :: rest => goesDown r cursor f && goesAlong r (r.descend cursor f) rest

/-- From one place to the next along an edge that is kept and gone down. -/
def Steps (r : Restrictor) (g : Graph) (place next : NodeId × RestrictCursor) : Prop :=
  ∃ e ∈ g.edges place.1, r.keeps place.2 e.feature = true ∧ goesDown r place.2 e.feature = true ∧
    next = (e.target, r.descend place.2 e.feature)

/-- Whether the rule at a place names the feature for gaps and the node has a value of it. -/
def gapAt (r : Restrictor) (s : Session) (place : NodeId × RestrictCursor) : Bool :=
  s.grammar.special.slash.any fun f => (s.graph.value? place.1 f).isSome &&
    (speakingRule? r place.2).any fun rule => (rule.child? f).isSome

/-- No way along the rules leads back to a node at another cursor, and there are fewer gap values
than a special restriction would go down. -/
structure Untangled (r : Restrictor) (s : Session) (root : NodeId) : Prop where
  cycle : ∀ {n : NodeId} {cursor cursor' : RestrictCursor},
    ReflTransGen (Steps r s.graph) (root, r.start) (n, cursor) →
    TransGen (Steps r s.graph) (n, cursor) (n, cursor') → cursor' = cursor
  gaps : {n | ∃ cursor, ReflTransGen (Steps r s.graph) (root, r.start) (n, cursor) ∧
    gapAt r s (n, cursor) = true}.ncard < slashLimit

end Pruning

namespace SpecialTask

/-- The place of a task. -/
def place : SpecialTask → NodeId × RestrictCursor
  | .enter n cursor _ | .decide n cursor _ _ _ | .judge n cursor _ _ _ _ => (n, cursor)

/-- How many gap values down a task is. -/
def depth : SpecialTask → Nat
  | .enter _ _ depth | .decide _ _ depth _ _ | .judge _ _ depth _ _ _ => depth

/-- Whether the node of the task is being gone through. -/
def isFrame : SpecialTask → Bool
  | .enter .. => false
  | _ => true

/-- The edges that the node may keep. -/
def edges : SpecialTask → List Edge
  | .enter .. => []
  | .decide _ _ _ left kept => kept.reverse ++ left
  | .judge _ _ _ e left kept => kept.reverse ++ e :: left

/-- The edges whose values have been restricted, or are about to be. -/
def settled : SpecialTask → List Edge
  | .enter .. => []
  | .decide _ _ _ _ kept => kept
  | .judge _ _ _ e _ kept => e :: kept

/-- A bound on the turns for a task, without those for nodes that have not been come to. -/
def cost : SpecialTask → Nat
  | .enter .. => 2
  | .decide _ _ _ left _ => 1 + 4 * left.length
  | .judge _ _ _ _ left _ => 2 + 4 * left.length

end SpecialTask

namespace Pruning

/-! ## Turns -/

section Turns

variable {u : Unfilling} {r : Restrictor} {p p' : Pruning} {n : NodeId} {cursor : RestrictCursor}
  {depth : Nat}

/-- The second state has lost edges at most. -/
structure Shrinks (p p' : Pruning) : Prop where
  sublist : ∀ n, (p'.session.graph.edges n).Sublist (p.session.graph.edges n)
  grammar : p.session.grammar.Learned p'.session.grammar
  size_eq : p'.session.graph.size = p.session.graph.size

theorem Shrinks.refl (p : Pruning) : Shrinks p p := ⟨fun _ => .refl _, .refl _, rfl⟩

theorem Shrinks.trans {p₁ p₂ p₃ : Pruning} (h : Shrinks p₁ p₂) (h' : Shrinks p₂ p₃) :
    Shrinks p₁ p₃ :=
  ⟨fun n => (h'.sublist n).trans (h.sublist n), h.grammar.trans h'.grammar,
    h'.size_eq.trans h.size_eq⟩

theorem shrinks_generalize (r : Restrictor) (p : Pruning) (n : NodeId) (cursor : RestrictCursor) :
    Shrinks p (p.generalize r n cursor) where
  sublist m := by
    rw [show (p.generalize r n cursor).session.graph.edges m = p.session.graph.edges m from
      Graph.edges_setType ..]
  grammar := Grammar.learned_of_lattice _ (r.sound_generalize cursor _)
  size_eq := Graph.size_setType ..

theorem shrinks_emptyClosed (p : Pruning) (n : NodeId) :
    Shrinks p (p.emptyClosed n) ∧ (p.emptyClosed n).seen = p.seen := by
  obtain ⟨grammar, hlearned, heq | ⟨_, front, -, heq⟩⟩ := emptyClosed_cases p n <;> rw [heq]
  · exact ⟨⟨fun _ => .refl _, hlearned, rfl⟩, rfl⟩
  · refine ⟨⟨fun m => ?_, hlearned, Graph.size_setEdges ..⟩, rfl⟩
    refine (Graph.edges_setEdges ..).symm ▸ ?_
    split
    · exact List.nil_sublist _
    · exact .refl _

/-- A node as it is when the walk has come to it at a cursor. -/
def come (r : Restrictor) (p : Pruning) (n : NodeId) (cursor : RestrictCursor) : Pruning :=
  ((p.mark n cursor).emptyClosed n).generalize r n cursor

theorem mem_seen_come (place : NodeId × RestrictCursor) :
    place ∈ (p.come r n cursor).seen ↔ place = (n, cursor) ∨ place ∈ p.seen := by
  show place ∈ ((p.mark n cursor).emptyClosed n).seen ↔ _
  rw [(shrinks_emptyClosed ..).2]
  exact mem_seen_mark n cursor place

theorem not_mem_seen_come {place : NodeId × RestrictCursor} (hne : place ≠ (n, cursor))
    (h : place ∉ p.seen) : place ∉ (p.come r n cursor).seen :=
  (mem_seen_come place).not.2 (not_or.2 ⟨hne, h⟩)

theorem shrinks_come (r : Restrictor) (p : Pruning) (n : NodeId) (cursor : RestrictCursor) :
    Shrinks p (p.come r n cursor) := by
  have hmark : Shrinks p (p.mark n cursor) := ⟨fun _ => .refl _, .refl _, rfl⟩
  exact (hmark.trans (shrinks_emptyClosed ..).1).trans (shrinks_generalize ..)

theorem specialTurn_seen (depth : Nat) (h : (n, cursor) ∈ p.seen) :
    specialTurn u r p (.enter n cursor depth) = .next p [] := by
  simp only [specialTurn]
  rw [if_pos (Std.HashSet.contains_iff_mem.2 h)]

theorem specialTurn_new (depth : Nat) (h : (n, cursor) ∉ p.seen) :
    specialTurn u r p (.enter n cursor depth) = .next (p.come r n cursor)
      [.decide n cursor depth ((p.come r n cursor).session.graph.edges n) []] := by
  simp only [specialTurn]
  rw [if_neg (Std.HashSet.contains_iff_mem.not.2 h)]
  rfl

/-- The node of a task is still gone through: of the edges that are settled now, those that are gone
down lead to what is asked for. -/
structure GoesOn (r : Restrictor) (slash : Option FeatureId) (t : SpecialTask)
    (asked : List SpecialTask) (t' : SpecialTask) : Prop where
  isFrame : t'.isFrame = true
  place_eq : t'.place = t.place
  depth_eq : t'.depth = t.depth
  sublist : t'.edges.Sublist t.edges
  settled : ∀ e ∈ t'.settled, e ∈ t.settled ∨ r.keeps t.place.2 e.feature = true ∧
    (goesDown r t.place.2 e.feature = true →
      ∃ depth, SpecialTask.enter e.target (r.descend t.place.2 e.feature) depth ∈ asked)
  asks : asked = [] ∨ ∃ e ∈ t.edges, ∃ depth, r.keeps t.place.2 e.feature = true ∧
    goesDown r t.place.2 e.feature = true ∧
    asked = [.enter e.target (r.descend t.place.2 e.feature) depth] ∧
    (depth = t.depth ∨ depth = t.depth + 1 ∧ slash = some e.feature ∧
      (speakingRule? r t.place.2).any (fun rule => (rule.child? e.feature).isSome) = true)
  cost : (asked.map SpecialTask.cost).sum + t'.cost < t.cost

theorem goesOn_judged {slash : Option FeatureId} (e : Edge) (left kept : List Edge) (drop : Bool) :
    GoesOn r slash (.judge n cursor depth e left kept) []
      (.decide n cursor depth left (if drop then kept else e :: kept)) where
  isFrame := rfl
  place_eq := rfl
  depth_eq := rfl
  sublist := by
    cases drop <;> simp [SpecialTask.edges]
  settled d hd := by
    left
    cases drop
    · exact hd
    · exact List.mem_cons_of_mem _ hd
  asks := .inl rfl
  cost := by simp only [SpecialTask.cost, List.map_nil, List.sum_nil]; omega

/-- An edge that is kept and whose value is restricted. -/
theorem goesOn_down {slash : Option FeatureId} {e : Edge} {left kept : List Edge} {below : Nat}
    (hkeeps : r.keeps cursor e.feature = true) (hdown : goesDown r cursor e.feature = true)
    (hbelow : below = depth ∨ below = depth + 1 ∧ slash = some e.feature ∧
      (speakingRule? r cursor).any (fun rule => (rule.child? e.feature).isSome) = true)
    {t' : SpecialTask} (ht' : t' = .decide n cursor depth left (e :: kept) ∨
      t' = .judge n cursor depth e left kept) :
    GoesOn r slash (.decide n cursor depth (e :: left) kept)
      [.enter e.target (r.descend cursor e.feature) below] t' := by
  have hedge : e ∈ (SpecialTask.decide n cursor depth (e :: left) kept).edges := by
    simp [SpecialTask.edges]
  have hsettled : ∀ d ∈ e :: kept, d ∈ kept ∨ r.keeps cursor d.feature = true ∧
      (goesDown r cursor d.feature = true → ∃ depth,
        SpecialTask.enter d.target (r.descend cursor d.feature) depth ∈
          [SpecialTask.enter e.target (r.descend cursor e.feature) below]) := by
    intro d hd
    rcases List.mem_cons.1 hd with rfl | hd
    · exact .inr ⟨hkeeps, fun _ => ⟨below, List.mem_singleton_self _⟩⟩
    · exact .inl hd
  rcases ht' with rfl | rfl
  · refine ⟨rfl, rfl, rfl, by simp [SpecialTask.edges], hsettled,
      .inr ⟨e, hedge, below, hkeeps, hdown, rfl, hbelow⟩, ?_⟩
    simp [SpecialTask.cost]
    omega
  · refine ⟨rfl, rfl, rfl, .refl _, hsettled,
      .inr ⟨e, hedge, below, hkeeps, hdown, rfl, hbelow⟩, ?_⟩
    simp [SpecialTask.cost]
    omega

/-- An edge is decided on, unless it leads to the difference list at which the gaps end. -/
theorem decide_cases {e : Edge} {left kept : List Edge} {tasks : List SpecialTask}
    (ht : decide u r p n cursor depth e left kept = .next p' tasks) :
    (p' = p ∧ ∃ asked t', tasks = asked ++ [t'] ∧ GoesOn r p.session.grammar.special.slash
      (.decide n cursor depth (e :: left) kept) asked t') ∨
    (p.session.grammar.special.slash = some e.feature ∧ depth + 1 = slashLimit ∧
      (speakingRule? r cursor).any (fun rule => (rule.child? e.feature).isSome) = true) := by
  have hdecides := decides u r p n cursor depth e left kept
  rw [ht] at hdecides
  cases hdecides with
  | dropped =>
    refine .inl ⟨rfl, [], _, rfl, rfl, rfl, rfl, ?_, fun d hd => .inl hd, .inl rfl, ?_⟩
    · simp [SpecialTask.edges]
    · simp [SpecialTask.cost]
  | silent hkeeps hrule =>
    have hdown : goesDown r cursor e.feature = true := by simp [goesDown, hrule]
    exact .inl ⟨rfl, [_], _, rfl, goesOn_down hkeeps hdown (.inl rfl) (.inl rfl)⟩
  | unnamed hkeeps hrule hchild =>
    have hdown : goesDown r cursor e.feature = false := by simp [goesDown, hrule, hchild]
    refine .inl ⟨rfl, [], _, rfl, rfl, rfl, rfl, ?_, fun d hd => ?_, .inl rfl, ?_⟩
    · split <;> simp [SpecialTask.edges]
    · simp only [SpecialTask.settled] at hd
      split at hd
      · exact .inl hd
      · rcases List.mem_cons.1 hd with rfl | hd
        · refine .inr ⟨hkeeps, fun hgoes => ?_⟩
          rw [SpecialTask.place, hdown] at hgoes
          cases hgoes
        · exact .inl hd
    · simp [SpecialTask.cost]
  | cut hkeeps hrule hchild hslash hlimit => exact .inr ⟨hslash, hlimit, by simp [hrule, hchild]⟩
  | @named rule child below hkeeps hrule hchild hbelow =>
    have hdown : goesDown r cursor e.feature = true := by simp [goesDown, hrule, hchild]
    have hnamed : (speakingRule? r cursor).any (fun rule => (rule.child? e.feature).isSome) =
        true := by
      simp [hrule, hchild]
    have hdescend : r.descend cursor e.feature = .at child := by
      have hat : r.ruleAt? cursor = some rule := by
        unfold speakingRule? at hrule
        exact (Option.filter_eq_some_iff.1 hrule).1
      simp [Restrictor.descend, hat, hchild]
    rw [← hdescend]
    exact .inl ⟨rfl, [_], _, rfl, goesOn_down hkeeps hdown
      (hbelow.imp_right fun h => ⟨h.1, h.2, hnamed⟩) (.inr rfl)⟩

/-- A turn of a node that is gone through writes back what is kept or goes on, unless the gaps end. -/
theorem specialTurn_frame {t : SpecialTask} {tasks : List SpecialTask} (hframe : t.isFrame = true)
    (ht : specialTurn u r p t = .next p' tasks) :
    (p' = p.mapGraph (·.setEdges t.place.1 t.edges) ∧ tasks = [] ∧ ∀ e ∈ t.edges, e ∈ t.settled) ∨
    (p' = p ∧ ∃ asked t', tasks = asked ++ [t'] ∧
      GoesOn r p.session.grammar.special.slash t asked t') ∨
    ∃ e ∈ t.edges, p.session.grammar.special.slash = some e.feature ∧ t.depth + 1 = slashLimit ∧
      (speakingRule? r t.place.2).any (fun rule => (rule.child? e.feature).isSome) = true := by
  cases t with
  | enter => cases hframe
  | judge n cursor depth e left kept =>
    cases ht
    exact .inr (.inl ⟨rfl, [], _, rfl, goesOn_judged e left kept _⟩)
  | decide n cursor depth left kept =>
    cases left with
    | nil =>
      cases ht
      refine .inl ⟨by simp [SpecialTask.edges, SpecialTask.place], rfl, ?_⟩
      simp [SpecialTask.edges, SpecialTask.settled]
    | cons e left =>
      rcases decide_cases ht with h | ⟨hslash, hlimit, hnamed⟩
      · exact .inr (.inl h)
      · exact .inr (.inr ⟨e, by simp [SpecialTask.edges], hslash, hlimit, hnamed⟩)

end Turns

/-! ## Nodes that are gone through -/

section Stack

variable {r : Restrictor} {s : Session} {root : NodeId} {t t' : SpecialTask}
  {asked waiting : List SpecialTask}

/-- No task is deeper than there are gap values at the places that are gone through below it. -/
def Shallow (r : Restrictor) (s : Session) : List SpecialTask → Prop
  | [] => True
  | t :: below => t.depth ≤ below.countP (fun t => gapAt r s t.place) ∧ Shallow r s below

/-- The tasks of a special restriction that began at the root: every place is led to by those below
it, and at most the first task is to come to a node. -/
structure Stacked (r : Restrictor) (s : Session) (root : NodeId) (tasks : List SpecialTask) :
    Prop where
  reach : ∀ t ∈ tasks, ReflTransGen (Steps r s.graph) (root, r.start) t.place
  above : tasks.Pairwise fun upper lower => TransGen (Steps r s.graph) lower.place upper.place
  frames : ∀ t ∈ tasks.tail, t.isFrame = true
  apart : tasks.Pairwise fun upper lower => upper.isFrame = true → upper.place.1 ≠ lower.place.1
  shallow : Shallow r s tasks
  cursor : ∀ t ∈ tasks, t.place.2 ∈ r.cursors

theorem stacked_start (hr : r.Grounded) (s : Session) (root : NodeId) :
    Stacked r s root [.enter root r.start 0] where
  reach := List.forall_mem_singleton.2 .refl
  above := List.pairwise_singleton ..
  frames := nofun
  apart := List.pairwise_singleton ..
  shallow := ⟨Nat.zero_le _, trivial⟩
  cursor := List.forall_mem_singleton.2 hr.start_mem

theorem Stacked.tail (h : Stacked r s root (t :: waiting)) : Stacked r s root waiting where
  reach t' ht' := h.reach t' (List.mem_cons_of_mem _ ht')
  above := h.above.tail
  frames t' ht' := h.frames t' (List.mem_of_mem_tail ht')
  apart := h.apart.tail
  shallow := h.shallow.2
  cursor t' ht' := h.cursor t' (List.mem_cons_of_mem _ ht')

/-- Another task at the same place, of a node that no other task goes through. -/
theorem Stacked.replace (h : Stacked r s root (t :: waiting)) (hplace : t'.place = t.place)
    (hdepth : t'.depth = t.depth)
    (happart : ∀ lower ∈ waiting, t.place.1 ≠ lower.place.1) : Stacked r s root (t' :: waiting) where
  reach := List.forall_mem_cons.2 ⟨hplace ▸ h.reach t (List.mem_cons_self ..), h.tail.reach⟩
  above := List.pairwise_cons.2 ⟨fun lower hlower =>
    hplace ▸ (List.pairwise_cons.1 h.above).1 lower hlower, h.tail.above⟩
  frames := h.frames
  apart := List.pairwise_cons.2 ⟨fun lower hlower _ => hplace ▸ happart lower hlower, h.tail.apart⟩
  shallow := ⟨hdepth ▸ h.shallow.1, h.shallow.2⟩
  cursor := List.forall_mem_cons.2 ⟨hplace ▸ h.cursor t (List.mem_cons_self ..), h.tail.cursor⟩

/-- A node that is come to for the first time at a cursor is not being gone through: no way leads
back to it at another cursor. -/
theorem Stacked.apart_of_new (hs : Untangled r s root) (h : Stacked r s root (t :: waiting))
    (hnew : ∀ lower ∈ waiting, lower.place ≠ t.place) : ∀ lower ∈ waiting,
    t.place.1 ≠ lower.place.1 := by
  intro lower hlower heq
  have hreach := h.reach lower (List.mem_cons_of_mem _ hlower)
  have habove := (List.pairwise_cons.1 h.above).1 lower hlower
  refine hnew lower hlower (Prod.ext heq.symm ?_)
  have hback : TransGen (Steps r s.graph) lower.place (lower.place.1, t.place.2) := by
    rw [← heq]
    exact habove
  exact (hs.cycle hreach hback).symm

theorem gapAt_of_mem {place : NodeId × RestrictCursor} {e : Edge} (he : e ∈ s.graph.edges place.1)
    (hslash : s.grammar.special.slash = some e.feature)
    (hnamed : (speakingRule? r place.2).any (fun rule => (rule.child? e.feature).isSome) = true) :
    gapAt r s place = true := by
  have hvalue : (s.graph.value? place.1 e.feature).isSome = true := by
    rw [Graph.value?, Edges.target?, Option.isSome_map, List.find?_isSome]
    exact ⟨e, he, by simp⟩
  simp [gapAt, hslash, hvalue, hnamed]

theorem gaps_subset (r : Restrictor) (s : Session) (root : NodeId) :
    {n | ∃ cursor, ReflTransGen (Steps r s.graph) (root, r.start) (n, cursor) ∧
      gapAt r s (n, cursor) = true} ⊆ (Finset.range s.graph.size : Set NodeId) := by
  rintro n ⟨cursor, -, hgap⟩
  by_contra hn
  have hedges : s.graph.edges n = [] := Graph.edges_of_le (by simpa using hn)
  simp [gapAt, Graph.value?, hedges] at hgap

/-- The nodes that are gone through are fewer than gap values would be cut at. -/
theorem Stacked.countP_lt (hs : Untangled r s root) (h : Stacked r s root (t :: waiting))
    (ht : t.isFrame = true) : (t :: waiting).countP (fun t => gapAt r s t.place) < slashLimit := by
  have hframes : ∀ t' ∈ t :: waiting, t'.isFrame = true := List.forall_mem_cons.2 ⟨ht, h.frames⟩
  have hnodup : ((t :: waiting).filter fun t => gapAt r s t.place).Pairwise
      fun upper lower => upper.place.1 ≠ lower.place.1 :=
    (h.apart.imp_of_mem fun hupper _ hne => hne (hframes _ hupper)).filter _
  have hnodes : ((((t :: waiting).filter fun t => gapAt r s t.place).map fun t => t.place.1).toFinset :
      Set NodeId) ⊆ {n | ∃ cursor, ReflTransGen (Steps r s.graph) (root, r.start) (n, cursor) ∧
        gapAt r s (n, cursor) = true} := by
    intro n hn
    obtain ⟨t', ht', rfl⟩ := List.mem_map.1 (List.mem_toFinset.1 hn)
    obtain ⟨hmem, hgap⟩ := List.mem_filter.1 ht'
    exact ⟨t'.place.2, h.reach t' hmem, hgap⟩
  have hnodup' : (((t :: waiting).filter fun t => gapAt r s t.place).map fun t => t.place.1).Nodup :=
    List.pairwise_map.2 hnodup
  calc (t :: waiting).countP (fun t => gapAt r s t.place)
      = (((t :: waiting).filter fun t => gapAt r s t.place).map fun t => t.place.1).toFinset.card := by
        rw [List.toFinset_card_of_nodup hnodup', List.length_map, List.countP_eq_length_filter]
    _ ≤ _ := by
        rw [← Set.ncard_coe_finset]
        exact Set.ncard_le_ncard hnodes ((Finset.finite_toSet _).subset (gaps_subset r s root))
    _ < slashLimit := hs.gaps

/-- The task is gone on with, below a node that it asks for. -/
theorem Stacked.goOn {slash : Option FeatureId} (hr : r.Grounded)
    (h : Stacked r s root (t :: waiting))
    (ht : t.isFrame = true) (hslash : s.grammar.special.slash = slash)
    (hedges : t.edges.Sublist (s.graph.edges t.place.1)) (hgoes : GoesOn r slash t asked t') :
    Stacked r s root (asked ++ t' :: waiting) := by
  have happart : ∀ lower ∈ waiting, t.place.1 ≠ lower.place.1 :=
    fun lower hlower => (List.pairwise_cons.1 h.apart).1 lower hlower ht
  have h' := h.replace hgoes.place_eq hgoes.depth_eq happart
  rcases hgoes.asks with rfl | ⟨e, he, depth, hkeeps, hdown, rfl, hdepth⟩
  · exact h'
  · have hstep : Steps r s.graph t'.place (e.target, r.descend t'.place.2 e.feature) := by
      rw [hgoes.place_eq]
      exact ⟨e, hedges.subset he, hkeeps, hdown, rfl⟩
    rw [← hgoes.place_eq] at hdepth ⊢
    change Stacked r s root (.enter e.target (r.descend t'.place.2 e.feature) depth :: t' :: waiting)
    have hframes : ∀ t'' ∈ t' :: waiting, t''.isFrame = true :=
      List.forall_mem_cons.2 ⟨hgoes.isFrame, h.frames⟩
    refine ⟨List.forall_mem_cons.2 ⟨(h'.reach t' (List.mem_cons_self ..)).tail hstep, h'.reach⟩,
      List.pairwise_cons.2 ⟨List.forall_mem_cons.2 ⟨.single hstep, fun lower hlower =>
        ((List.pairwise_cons.1 h'.above).1 lower hlower).tail hstep⟩, h'.above⟩, hframes,
      List.pairwise_cons.2 ⟨fun _ _ hframe => (nomatch hframe), h'.apart⟩, ⟨?_, h'.shallow⟩,
      List.forall_mem_cons.2 ⟨hr.descend_mem .., h'.cursor⟩⟩
    have hshallow := h'.shallow.1
    rw [← hgoes.depth_eq] at hdepth
    show depth ≤ (t' :: waiting).countP _
    rw [List.countP_cons]
    rcases hdepth with rfl | ⟨rfl, hgap, hnamed⟩
    · omega
    · have hat : gapAt r s t'.place = true :=
        gapAt_of_mem (hgoes.place_eq ▸ hedges.subset he) (hslash.trans hgap) hnamed
      rw [if_pos hat]
      omega

end Stack

/-! ## The walk -/

section Walk

variable {u : Unfilling} {r : Restrictor} {s : Session} {root : NodeId} {p p' : Pruning}
  {t t' : SpecialTask} {asked tasks tasks' waiting : List SpecialTask}

/-- The walk has come to a place, or is about to. -/
def Coming (p : Pruning) (tasks : List SpecialTask) (place : NodeId × RestrictCursor) : Prop :=
  place ∈ p.seen ∨ ∃ depth, .enter place.1 place.2 depth ∈ tasks

/-- An edge is kept at a cursor, and if it is gone down, the walk comes to its value. -/
def Fits (r : Restrictor) (p : Pruning) (tasks : List SpecialTask) (cursor : RestrictCursor)
    (e : Edge) : Prop :=
  r.keeps cursor e.feature = true ∧
    (goesDown r cursor e.feature = true → Coming p tasks (e.target, r.descend cursor e.feature))

theorem Fits.mono {cursor : RestrictCursor} {e : Edge} (h : Fits r p tasks cursor e)
    (hcome : ∀ place, Coming p tasks place → Coming p' tasks' place) : Fits r p' tasks' cursor e :=
  ⟨h.1, fun hdown => hcome _ (h.2 hdown)⟩

/-- What holds of a node that is gone through: what is settled fits at its cursor, and whatever it
may keep fits at the cursors where the node was come to before. -/
structure Frame (r : Restrictor) (s : Session) (p : Pruning) (tasks : List SpecialTask)
    (t : SpecialTask) : Prop where
  seen : t.place ∈ p.seen
  sublist : t.edges.Sublist (s.graph.edges t.place.1)
  settled : ∀ e ∈ t.settled, Fits r p tasks t.place.2 e
  others : ∀ cursor ≠ t.place.2, (t.place.1, cursor) ∈ p.seen →
    ∀ e ∈ t.edges, Fits r p tasks cursor e

/-- What holds between two turns of a special restriction that began in `s` at the root. -/
structure Proceeds (r : Restrictor) (s : Session) (root : NodeId) (p : Pruning)
    (tasks : List SpecialTask) : Prop where
  stacked : Stacked r s root tasks
  shrinks : Shrinks (.start s) p
  begun : Coming p tasks (root, r.start)
  frame : ∀ t ∈ tasks, t.isFrame = true → Frame r s p tasks t
  finished : ∀ {n cursor e}, (n, cursor) ∈ p.seen →
    (∀ t ∈ tasks, t.isFrame = true → t.place ≠ (n, cursor)) → e ∈ p.session.graph.edges n →
    Fits r p tasks cursor e

theorem Frame.mono (h : Frame r s p tasks t)
    (hcome : ∀ place, Coming p tasks place → Coming p' tasks' place)
    (hseen : ∀ cursor, (t.place.1, cursor) ∈ p'.seen ↔ (t.place.1, cursor) ∈ p.seen) :
    Frame r s p' tasks' t where
  seen := (hseen t.place.2).2 h.seen
  sublist := h.sublist
  settled e he := (h.settled e he).mono hcome
  others cursor hne hcursor e he := (h.others cursor hne ((hseen cursor).1 hcursor) e he).mono hcome

theorem proceeds_start (hr : r.Grounded) (s : Session) (root : NodeId) :
    Proceeds r s root (.start s) [.enter root r.start 0] where
  stacked := stacked_start hr s root
  shrinks := .refl _
  begun := .inr ⟨0, List.mem_singleton_self _⟩
  frame := List.forall_mem_singleton.2 nofun
  finished h := absurd h Std.HashSet.not_mem_empty

/-- What was about to be come to has been, or is so still. -/
theorem Coming.of_cons {place : NodeId × RestrictCursor} (h : Coming p (t :: waiting) place)
    (hseen : ∀ place ∈ p.seen, place ∈ p'.seen) (ht : t.isFrame = true ∨ t.place ∈ p'.seen)
    (htasks : ∀ t' ∈ waiting, t' ∈ tasks') : Coming p' tasks' place := by
  rcases h with h | ⟨depth, h⟩
  · exact .inl (hseen _ h)
  · rcases List.mem_cons.1 h with rfl | h
    · exact .inl (ht.resolve_left nofun)
    · exact .inr ⟨depth, htasks _ h⟩

/-- A place that was come to before need not be come to again. -/
theorem Proceeds.pop (h : Proceeds r s root p (t :: waiting)) (ht : t.isFrame = false)
    (hseen : t.place ∈ p.seen) : Proceeds r s root p waiting := by
  have hcome : ∀ place, Coming p (t :: waiting) place → Coming p waiting place :=
    fun place hplace => hplace.of_cons (fun _ hmem => hmem) (.inr hseen) fun _ hmem => hmem
  refine ⟨h.stacked.tail, h.shrinks, hcome _ h.begun, fun t' ht' hframe =>
    (h.frame t' (List.mem_cons_of_mem _ ht') hframe).mono hcome fun _ => .rfl,
    fun hmem hfree he => (h.finished hmem (List.forall_mem_cons.2 ⟨fun hframe => ?_, hfree⟩)
      he).mono hcome⟩
  rw [ht] at hframe
  cases hframe

/-- A node that is come to for the first time at a cursor is gone through from then on. -/
theorem Proceeds.visit {n : NodeId} {cursor : RestrictCursor} {depth : Nat}
    (hs : Untangled r s root) (h : Proceeds r s root p (.enter n cursor depth :: waiting))
    (hnew : (n, cursor) ∉ p.seen) (hp : p' = p.come r n cursor) :
    Proceeds r s root p' (.decide n cursor depth (p'.session.graph.edges n) [] :: waiting) := by
  have hseen : ∀ place, place ∈ p'.seen ↔ place = (n, cursor) ∨ place ∈ p.seen :=
    fun place => hp ▸ mem_seen_come place
  have hshrinks : Shrinks p p' := hp ▸ shrinks_come r p n cursor
  have hframe : ∀ t ∈ waiting, t.isFrame = true := h.stacked.frames
  have happart : ∀ t ∈ waiting, n ≠ t.place.1 := by
    refine h.stacked.apart_of_new hs fun t ht heq => hnew ?_
    have hmem := (h.frame t (List.mem_cons_of_mem _ ht) (hframe t ht)).seen
    rwa [heq] at hmem
  have hcome : ∀ place, Coming p (.enter n cursor depth :: waiting) place →
      Coming p' (.decide n cursor depth (p'.session.graph.edges n) [] :: waiting) place :=
    fun place hplace => hplace.of_cons (fun q hq => (hseen q).2 (.inr hq))
      (.inr ((hseen _).2 (.inl rfl))) fun _ hmem => List.mem_cons_of_mem _ hmem
  -- a node that waits is not this one, so no other visit of this node is under way
  have hothers : ∀ cursor', cursor' ≠ cursor → (n, cursor') ∈ p'.seen →
      ∀ e ∈ p'.session.graph.edges n, Fits r p'
        (.decide n cursor depth (p'.session.graph.edges n) [] :: waiting) cursor' e := by
    intro cursor' hne hmem e he
    have hmem' : (n, cursor') ∈ p.seen :=
      ((hseen _).1 hmem).resolve_left fun heq => hne (congrArg Prod.snd heq)
    refine (h.finished hmem' (List.forall_mem_cons.2 ⟨nofun, fun t ht _ heq =>
      happart t ht (congrArg Prod.fst heq).symm⟩) ((hshrinks.sublist n).subset he)).mono hcome
  have hshrinks' := h.shrinks.trans hshrinks
  refine ⟨h.stacked.replace rfl rfl happart, hshrinks', hcome _ h.begun, ?_, ?_⟩
  · refine List.forall_mem_cons.2 ⟨fun _ => ⟨(hseen _).2 (.inl rfl), hshrinks'.sublist n, nofun,
      hothers⟩, fun t ht hframe => ?_⟩
    refine (h.frame t (List.mem_cons_of_mem _ ht) hframe).mono hcome fun cursor' => ?_
    refine (hseen _).trans (or_iff_right fun heq => ?_)
    exact happart t ht (congrArg Prod.fst heq).symm
  · intro m cursor' e hmem hfree he
    rcases (hseen _).1 hmem with heq | hmem
    · exact absurd heq.symm (hfree _ (List.mem_cons_self ..) rfl)
    · exact (h.finished hmem (List.forall_mem_cons.2 ⟨nofun, fun t ht =>
        hfree t (List.mem_cons_of_mem _ ht)⟩) ((hshrinks.sublist m).subset he)).mono hcome

/-- A node that was gone through gets the edges that are kept. -/
theorem Proceeds.finish (h : Proceeds r s root p (t :: waiting)) (ht : t.isFrame = true)
    (hsettled : ∀ e ∈ t.edges, e ∈ t.settled) :
    Proceeds r s root (p.mapGraph (·.setEdges t.place.1 t.edges)) waiting := by
  have hframe := h.frame t (List.mem_cons_self ..) ht
  have happart : ∀ t' ∈ waiting, t.place.1 ≠ t'.place.1 :=
    fun t' ht' => (List.pairwise_cons.1 h.stacked.apart).1 t' ht' ht
  have hcome : ∀ place, Coming p (t :: waiting) place →
      Coming (p.mapGraph (·.setEdges t.place.1 t.edges)) waiting place :=
    fun place hplace => hplace.of_cons (fun _ hmem => hmem) (.inl ht) fun _ hmem => hmem
  have hedges : ∀ m, (p.mapGraph (·.setEdges t.place.1 t.edges)).session.graph.edges m =
      if t.place.1 = m ∧ t.place.1 < p.session.graph.size then t.edges
      else p.session.graph.edges m := fun m => Graph.edges_setEdges ..
  refine ⟨h.stacked.tail, ⟨fun m => ?_, h.shrinks.grammar,
    (Graph.size_setEdges ..).trans h.shrinks.size_eq⟩, hcome _ h.begun, fun t' ht' hframe' =>
    (h.frame t' (List.mem_cons_of_mem _ ht') hframe').mono hcome fun _ => .rfl, ?_⟩
  · rw [hedges]
    split
    · rename_i heq
      exact heq.1 ▸ hframe.sublist
    · exact h.shrinks.sublist m
  · intro m cursor e hmem hfree he
    rw [hedges] at he
    by_cases hm : t.place.1 = m
    · subst hm
      have hmem' : e ∈ t.edges := by
        split at he
        · exact he
        · rename_i hout
          rw [Graph.edges_of_le (Nat.le_of_not_lt fun hlt => hout ⟨rfl, hlt⟩)] at he
          cases he
      by_cases hcursor : cursor = t.place.2
      · rw [hcursor]
        exact (hframe.settled e (hsettled e hmem')).mono hcome
      · exact (hframe.others cursor hcursor hmem e hmem').mono hcome
    · rw [if_neg fun heq => hm heq.1] at he
      exact (h.finished hmem (List.forall_mem_cons.2 ⟨fun _ heq => hm (congrArg Prod.fst heq),
        hfree⟩) he).mono hcome

/-- A node that is gone through goes on. -/
theorem Proceeds.goOn (hr : r.Grounded) {slash : Option FeatureId}
    (hslash : s.grammar.special.slash = slash)
    (h : Proceeds r s root p (t :: waiting)) (ht : t.isFrame = true)
    (hgoes : GoesOn r slash t asked t') :
    Proceeds r s root p (asked ++ t' :: waiting) := by
  have hframe := h.frame t (List.mem_cons_self ..) ht
  have hcome : ∀ place, Coming p (t :: waiting) place → Coming p (asked ++ t' :: waiting) place :=
    fun place hplace => hplace.of_cons (fun _ hmem => hmem) (.inl ht)
      fun _ hmem => List.mem_append_right _ (List.mem_cons_of_mem _ hmem)
  have hframes : ∀ t'' ∈ asked, t''.isFrame = false := by
    rcases hgoes.asks with rfl | ⟨e, -, depth, -, -, rfl, -⟩
    · nofun
    · exact List.forall_mem_singleton.2 rfl
  refine ⟨h.stacked.goOn hr ht hslash hframe.sublist hgoes, h.shrinks, hcome _ h.begun, ?_, ?_⟩
  · intro t'' ht'' hframe''
    rcases List.mem_append.1 ht'' with hmem | hmem
    · rw [hframes t'' hmem] at hframe''
      cases hframe''
    · rcases List.mem_cons.1 hmem with rfl | hmem
      · refine ⟨hgoes.place_eq ▸ hframe.seen, hgoes.place_eq ▸ hgoes.sublist.trans hframe.sublist,
          fun e he => ?_, fun cursor hne hcursor e he => ?_⟩
        · rw [hgoes.place_eq]
          rcases hgoes.settled e he with he | ⟨hkeeps, hdown⟩
          · exact (hframe.settled e he).mono hcome
          · refine ⟨hkeeps, fun hgo => ?_⟩
            obtain ⟨depth, hmem⟩ := hdown hgo
            exact .inr ⟨depth, List.mem_append_left _ hmem⟩
        · rw [hgoes.place_eq] at hne hcursor
          exact (hframe.others cursor hne hcursor e (hgoes.sublist.subset he)).mono hcome
      · exact (h.frame t'' (List.mem_cons_of_mem _ hmem) hframe'').mono hcome fun _ => .rfl
  · intro m cursor e hmem hfree he
    refine (h.finished hmem (List.forall_mem_cons.2 ⟨fun _ => ?_, fun t'' ht'' =>
      hfree t'' (List.mem_append_right _ (List.mem_cons_of_mem _ ht''))⟩) he).mono hcome
    rw [← hgoes.place_eq]
    exact hfree t' (List.mem_append_right _ (List.mem_cons_self ..)) hgoes.isFrame

/-- A turn that is taken while this holds is one of these: a place was come to before or is come to,
a node is done with, or is gone on with. -/
theorem Proceeds.turn_cases (hs : Untangled r s root)
    (h : Proceeds r s root p (t :: waiting)) (ht : specialTurn u r p t = .next p' tasks) :
    (t.isFrame = false ∧ t.place ∈ p.seen ∧ p' = p ∧ tasks = []) ∨
    (∃ n cursor depth, t = .enter n cursor depth ∧ (n, cursor) ∉ p.seen ∧ p' = p.come r n cursor ∧
      tasks = [.decide n cursor depth (p'.session.graph.edges n) []]) ∨
    (t.isFrame = true ∧ p' = p.mapGraph (·.setEdges t.place.1 t.edges) ∧ tasks = [] ∧
      ∀ e ∈ t.edges, e ∈ t.settled) ∨
    (t.isFrame = true ∧ p' = p ∧ ∃ asked t', tasks = asked ++ [t'] ∧
      GoesOn r s.grammar.special.slash t asked t') := by
  have hspecial : p.session.grammar.special = s.grammar.special := by
    rw [h.shrinks.grammar.eq]
    rfl
  cases hframe : t.isFrame with
  | false =>
    cases t with
    | enter n cursor depth =>
      by_cases hseen : (n, cursor) ∈ p.seen
      · rw [specialTurn_seen depth hseen] at ht
        cases ht
        exact .inl ⟨rfl, hseen, rfl, rfl⟩
      · rw [specialTurn_new depth hseen] at ht
        cases ht
        exact .inr (.inl ⟨n, cursor, depth, rfl, hseen, rfl, rfl⟩)
    | decide => cases hframe
    | judge => cases hframe
  | true =>
    rcases specialTurn_frame hframe ht with hdone | hgoes | ⟨e, he, hslash, hlimit, hnamed⟩
    · exact .inr (.inr (.inl ⟨rfl, hdone⟩))
    · rw [hspecial] at hgoes
      exact .inr (.inr (.inr ⟨rfl, hgoes⟩))
    · -- the gaps do not end: each of them is the value of another node that is gone through
      exfalso
      rw [hspecial] at hslash
      have hsublist := (h.frame t (List.mem_cons_self ..) hframe).sublist
      have hgap := gapAt_of_mem (hsublist.subset he) hslash hnamed
      have hlt := h.stacked.countP_lt hs hframe
      have hdepth := h.stacked.shallow.1
      rw [List.countP_cons, if_pos hgap] at hlt
      omega

theorem keeps_proceeds (hr : r.Grounded) (hs : Untangled r s root) :
    Agenda.Keeps (specialTurn u r) (Proceeds r s root) where
  next {p t waiting p' tasks} h ht := by
    rcases h.turn_cases hs ht with ⟨hframe, hseen, rfl, rfl⟩ |
      ⟨n, cursor, depth, rfl, hnew, rfl, rfl⟩ | ⟨hframe, rfl, rfl, hsettled⟩ |
      ⟨hframe, rfl, asked, t', rfl, hgoes⟩
    · exact h.pop hframe hseen
    · exact h.visit hs hnew rfl
    · exact h.finish hframe hsettled
    · rw [List.append_assoc]
      exact h.goOn hr rfl hframe hgoes

/-- A special restriction comes to its end within the turns that it is allowed. -/
theorem run_specialTurn_ne_spent (u : Unfilling) (hr : r.Grounded) (hs : Untangled r s root)
    (p : Pruning) (waiting : List SpecialTask) :
    Agenda.run (specialTurn u r) (8 * r.cursorBound * s.graph.weight) (.start s)
      [.enter root r.start 0] ≠ .spent p waiting := by
  refine (keeps_proceeds hr hs).run_ne_spent (fun p tasks => (tasks.map SpecialTask.cost).sum +
    remaining r s.graph.size (fun n => 4 * (s.graph.edges n).length) p) ?_ ?_
    (proceeds_start hr s root) ?_ p waiting
  · intro p t waiting _
    have hcost : 0 < t.cost := by cases t <;> simp [SpecialTask.cost]
    simp only [List.map_cons, List.sum_cons]
    omega
  · intro p t waiting p' tasks h ht
    rcases h.turn_cases hs ht with ⟨hframe, -, rfl, rfl⟩ |
      ⟨n, cursor, depth, rfl, hnew, rfl, rfl⟩ | ⟨hframe, rfl, rfl, -⟩ |
      ⟨hframe, rfl, asked, t', rfl, hgoes⟩
    · have hcost : 0 < t.cost := by cases t <;> simp [SpecialTask.cost]
      simp only [List.nil_append, List.map_cons, List.sum_cons]
      omega
    · have hcursor := h.stacked.cursor _ (List.mem_cons_self ..)
      have hshrinks := shrinks_come r p n cursor
      have hlength := ((h.shrinks.trans hshrinks).sublist n).length_le
      simp only [List.singleton_append, List.map_cons, List.sum_cons, SpecialTask.cost]
      by_cases hn : n < s.graph.size
      · have hleft := remaining_mark (fun n => 4 * (s.graph.edges n).length)
          (mem_seen_come (r := r)) hnew hn hcursor
        have hstart : (Pruning.start s).session.graph.edges n = s.graph.edges n := rfl
        rw [hstart] at hlength
        omega
      · have hnone : (p.come r n cursor).session.graph.edges n = [] := by
          refine Graph.edges_of_le ?_
          rw [(h.shrinks.trans hshrinks).size_eq]
          exact Nat.le_of_not_lt hn
        have hseen : ∀ place ∈ p.seen, place ∈ (p.come r n cursor).seen :=
          fun place hplace => (mem_seen_come place).2 (.inr hplace)
        have hleft := remaining_mono r s.graph.size (fun n => 4 * (s.graph.edges n).length) hseen
        rw [hnone, List.length_nil]
        omega
    · have hcost : 0 < t.cost := by cases t <;> simp [SpecialTask.cost]
      have hleft : remaining r s.graph.size (fun n => 4 * (s.graph.edges n).length)
          (p.mapGraph (·.setEdges t.place.1 t.edges)) =
        remaining r s.graph.size (fun n => 4 * (s.graph.edges n).length) p := rfl
      simp only [List.nil_append, List.map_cons, List.sum_cons, hleft]
      omega
    · have hcost := hgoes.cost
      simp only [List.append_assoc, List.singleton_append, List.map_append, List.map_cons,
        List.sum_append, List.sum_cons]
      omega
  · have hsum := remaining_le r s.graph.size (fun n => 4 * (s.graph.edges n).length) (.start s)
    rw [← Finset.mul_sum, Nat.mul_left_comm] at hsum
    have hweight := r.cursorBound_mul_weight s.graph
    have hbound := r.cursorBound_pos
    simp only [List.map_cons, List.map_nil, List.sum_cons, List.sum_nil, SpecialTask.cost]
    rw [Nat.mul_assoc]
    omega

/-- When no task waits, the walk has come to wherever it goes along a path that is left. -/
theorem Proceeds.mem_seen_of_follow (h : Proceeds r s root p []) {path : List FeatureId}
    {n : NodeId} (hn : p.session.graph.follow? root path = some n)
    (hpath : goesAlong r r.start path = true) : (n, r.cursorAt path) ∈ p.seen := by
  have hcome : ∀ place, Coming p [] place → place ∈ p.seen :=
    fun place hplace => hplace.resolve_right fun ⟨_, hmem⟩ => List.not_mem_nil hmem
  have hall : ∀ (path : List FeatureId) (m : NodeId) (cursor : RestrictCursor),
      (m, cursor) ∈ p.seen → p.session.graph.follow? m path = some n →
      goesAlong r cursor path = true → (n, path.foldl r.descend cursor) ∈ p.seen := by
    intro path
    induction path with
    | nil =>
      rintro m cursor hm ⟨⟩ -
      exact hm
    | cons f rest ih =>
      intro m cursor hm hn hpath
      obtain ⟨m', hm', hn⟩ := Option.bind_eq_some_iff.1 hn
      obtain ⟨hdown, hpath⟩ := Bool.and_eq_true_iff.1 hpath
      have hfits := h.finished hm (List.forall_mem_nil _) (Edges.mem_of_target? hm')
      exact ih m' _ (hcome _ (hfits.2 hdown)) hn hpath
  exact hall path root r.start (hcome _ h.begun) hn hpath

end Walk

end Pruning

namespace Pruning

/-! ## Structures without cycles, and plain deletion -/

/-- Without cycles no way leads back to a node at all. -/
theorem untangled_of_acyclic {s : Session} (hs : s.graph.Sound) {root : NodeId}
    (hacyclic : s.shape.Acyclic root) (hsize : s.graph.size < slashLimit) (r : Restrictor) :
    Untangled r s root where
  cycle {n cursor cursor'} hreach hback := by
    have hstep : ∀ {place next}, Steps r s.graph place next → s.shape.Step place.1 next.1 := by
      rintro place _ ⟨e, he, -, -, rfl⟩
      exact ⟨e.feature, hs.value_eq_some_iff.2 he⟩
    exact absurd (hback.lift Prod.fst fun _ _ => hstep)
      (hacyclic (hreach.lift Prod.fst fun _ _ => hstep))
  gaps := by
    refine Nat.lt_of_le_of_lt ?_ hsize
    calc _ ≤ (Finset.range s.graph.size : Set NodeId).ncard :=
          Set.ncard_le_ncard (gaps_subset r s root) (Finset.finite_toSet _)
      _ = s.graph.size := by rw [Set.ncard_coe_finset, Finset.card_range]

/-- Without rules there is one cursor. -/
theorem untangled_simple (deleted : FeatureSet) (s : Session) (root : NodeId) :
    Untangled (.simple deleted) s root where
  cycle {n cursor cursor'} hreach hback := by
    have hstep : ∀ {place next}, Steps (.simple deleted) s.graph place next → next.2 = .open := by
      rintro place _ ⟨e, -, -, -, rfl⟩
      rfl
    have hcursor : cursor = .open := by
      rcases ReflTransGen.cases_tail hreach with heq | ⟨_, -, hlast⟩
      · exact congrArg Prod.snd heq
      · exact hstep hlast
    obtain ⟨_, -, hlast⟩ := TransGen.tail'_iff.1 hback
    exact (hstep hlast).trans hcursor.symm
  gaps := by
    have hnone : ∀ place, gapAt (.simple deleted) s place = false := by
      intro place
      have hsilent : speakingRule? (.simple deleted) place.2 = none := rfl
      simp [gapAt, hsilent]
    simp [hnone, slashLimit]

end Pruning

namespace Session

open Pruning

/-- A special restriction comes to its end with no task left, and what its turns keep holds there. -/
theorem exists_done_restrictSpecial (s : Session) {root : NodeId} {r : Restrictor}
    (hr : r.Grounded) (hs : Untangled r s root) {Inv : Pruning → List SpecialTask → Prop}
    (hkeeps : ∀ u, Agenda.Keeps (specialTurn u r) Inv)
    (hstart : Inv (.start s) [.enter root r.start 0]) :
    ∃ p, Inv p [] ∧ s.restrictSpecial root r = p.session.invalidate := by
  let u : Unfilling := ⟨s.grammar, s.graph.committedArrivals root, false⟩
  refine ⟨(Agenda.run (specialTurn u r) (8 * r.cursorBound * s.graph.weight) (.start s)
    [.enter root r.start 0]).state, ?_, rfl⟩
  cases hrun : Agenda.run (specialTurn u r) (8 * r.cursorBound * s.graph.weight) (.start s)
      [.enter root r.start 0] with
  | done p => exact (hkeeps u).done hstart hrun
  | halted p answer => exact answer.elim
  | spent p waiting => exact absurd hrun (run_specialTurn_ne_spent u hr hs p waiting)

theorem exists_proceeds_restrictSpecial (s : Session) {root : NodeId} {r : Restrictor}
    (hr : r.Grounded) (hs : Untangled r s root) :
    ∃ p, Proceeds r s root p [] ∧ s.restrictSpecial root r = p.session.invalidate :=
  exists_done_restrictSpecial s hr hs (fun _ => keeps_proceeds hr hs) (proceeds_start hr s root)

/-- Special restriction is thorough along the rules. Where no way along the rules leads back to a node
at another cursor and the gaps do not end, every path that is left and that it goes along leads to
a node whose edges are all kept at the cursor where the path leads to. -/
theorem restrictSpecial_thorough (s : Session) {root : NodeId} {r : Restrictor} (hr : r.Grounded)
    (hs : Untangled r s root) (path : List FeatureId) (n : NodeId)
    (hn : (s.restrictSpecial root r).graph.follow? root path = some n)
    (hpath : goesAlong r r.start path = true) :
    ∀ e ∈ (s.restrictSpecial root r).graph.edges n,
      r.keeps (r.cursorAt path) e.feature = true := by
  obtain ⟨p, hproceeds, heq⟩ := exists_proceeds_restrictSpecial s hr hs
  intro e he
  rw [heq, invalidate, mapGraph, Graph.follow?_invalidate] at hn
  rw [heq, invalidate, mapGraph, Graph.edges_invalidate] at he
  exact (hproceeds.finished (hproceeds.mem_seen_of_follow hn hpath) (List.forall_mem_nil _) he).1

/-- A special restriction that comes to its end is what it ends with. -/
theorem restrictSpecial_of_leads {s : Session} {root : NodeId} {r : Restrictor} {turns : Nat}
    {p : Pruning}
    (h : Agenda.Leads (specialTurn ⟨s.grammar, s.graph.committedArrivals root, false⟩ r) (.start s)
      [.enter root r.start 0] turns p) (hturns : turns ≤ 8 * r.cursorBound * s.graph.weight) :
    s.restrictSpecial root r = p.session.invalidate := by
  rw [restrictSpecial, h.run_eq_done hturns]
  rfl

/-- A node whose two values are one node, which has two values that are one. -/
def forked : Session := Sample.session
  { Sample.grammar [] [] with special := { (default : SpecialFeatures) with slash := some 0 } }
  [(.of 1, [⟨0, 1⟩, ⟨1, 1⟩]), (.of 2, [⟨0, 2⟩, ⟨1, 2⟩]), (.top, [])]

/-- Below the first feature the second one goes. -/
def layered : Restrictor :=
  .tree .empty ⟨#[⟨.leave, [], [⟨0, 1⟩]⟩, ⟨.leave, [], [⟨1, 2⟩]⟩, .plain .delete], 0⟩

theorem grounded_layered : layered.Grounded := by
  rintro _ ⟨⟩
  decide

theorem untangled_forked : Untangled layered forked 0 := by
  have hsound : forked.graph.Sound := (Graph.sound_ofNodes (by decide)).1
  refine untangled_of_acyclic hsound ?_ (by decide) layered
  exact hsound.acyclic_of_lt [0, 1, 2] (by decide) (by decide)

open Agenda in
theorem restrictSpecial_thorough_forked : layered.Grounded ∧ Untangled layered forked 0 ∧
    (forked.restrictSpecial 0 layered).graph.follow? 0 [0] = some 1 ∧
    goesAlong layered layered.start [0] = true ∧
    ∀ e ∈ (forked.restrictSpecial 0 layered).graph.edges 1,
      layered.keeps (layered.cursorAt [0]) e.feature = true := by
  have hfollow : (forked.restrictSpecial 0 layered).graph.follow? 0 [0] = some 1 := by
    have hnew : ((1 : NodeId), RestrictCursor.at 1) ∉
        ((Pruning.start forked).come layered 0 layered.start).seen :=
      not_mem_seen_come (by decide) Std.HashSet.not_mem_empty
    have hrun : Leads (specialTurn ⟨forked.grammar, forked.graph.committedArrivals 0, false⟩
        layered) (.start forked) [.enter 0 layered.start 0] 9 _ :=
      leads_of_next (specialTurn_new 0 Std.HashSet.not_mem_empty) (leads_of_next rfl
        (.cons (leads_of_next (specialTurn_new 1 hnew) (leads_of_next rfl (leads_of_next rfl
            (leads_of_next rfl (leads_nil _)))))
          (leads_of_next rfl (leads_of_next rfl (leads_of_next rfl (leads_nil _))))))
    rw [restrictSpecial_of_leads hrun (by decide)]
    decide +kernel
  have hpath : goesAlong layered layered.start [0] = true := by decide
  exact ⟨grounded_layered, untangled_forked, hfollow, hpath,
    restrictSpecial_thorough forked grounded_layered untangled_forked [0] 1 hfollow hpath⟩

/-- Features that are deleted without rules are deleted everywhere. -/
theorem restrictSpecial_simple (s : Session) (root : NodeId) (deleted : FeatureSet)
    (path : List FeatureId) (n : NodeId)
    (hn : (s.restrictSpecial root (.simple deleted)).graph.follow? root path = some n) :
    ∀ e ∈ (s.restrictSpecial root (.simple deleted)).graph.edges n,
      deleted.contains e.feature = false := by
  have hpath : ∀ path, goesAlong (.simple deleted) .open path = true := by
    intro path
    induction path with
    | nil => rfl
    | cons f rest ih => exact ih
  obtain ⟨p, hproceeds, heq⟩ := exists_proceeds_restrictSpecial s
    (Restrictor.grounded_simple deleted) (untangled_simple deleted s root)
  intro e he
  rw [heq, invalidate, mapGraph, Graph.follow?_invalidate] at hn
  rw [heq, invalidate, mapGraph, Graph.edges_invalidate] at he
  have hseen := hproceeds.mem_seen_of_follow hn (hpath path)
  have hkeeps := (hproceeds.finished hseen (List.forall_mem_nil _) he).1
  cases hdeleted : deleted.contains e.feature with
  | false => rfl
  | true => simp [Restrictor.keeps, Restrictor.simple, hdeleted] at hkeeps

/-! A special restriction does not go down an edge that the rule does not name, and it may bring back
what was dropped when it comes to a node that it is going through. -/

/-- A node with a value that has a value. -/
def screened : Session := Sample.session (Sample.grammar [] [])
  [(.of 1, [⟨0, 1⟩]), (.of 2, [⟨1, 2⟩]), (.top, [])]

/-- The second feature is deleted everywhere, and the rule at the root names it. -/
def speaking : Restrictor := .tree ⟨[1]⟩ ⟨#[⟨.leave, [], [⟨1, 0⟩]⟩], 0⟩

/-- A node that is its own value. -/
def looped : Session := Sample.session (Sample.grammar [] [])
  [(.of 1, [⟨0, 0⟩, ⟨1, 1⟩]), (.top, [])]

open Agenda in
theorem not_restrictSpecial_thorough :
    (speaking.Grounded ∧ (screened.restrictSpecial 0 speaking).graph.follow? 0 [0] = some 1 ∧
      (⟨1, 2⟩ : Edge) ∈ (screened.restrictSpecial 0 speaking).graph.edges 1 ∧
      speaking.deleted.contains 1 = true ∧ speaking.keeps (speaking.cursorAt [0]) 1 = false) ∧
    layered.Grounded ∧ (looped.restrictSpecial 0 layered).graph.follow? 0 [0] = some 0 ∧
      (⟨1, 1⟩ : Edge) ∈ (looped.restrictSpecial 0 layered).graph.edges 0 ∧
      layered.keeps (layered.cursorAt [0]) 1 = false := by
  have hspeaking : speaking.Grounded := by
    rintro _ ⟨⟩
    decide
  refine ⟨⟨hspeaking, ?_⟩, grounded_layered, ?_⟩
  · have hrun : Leads (specialTurn ⟨screened.grammar, screened.graph.committedArrivals 0, false⟩
        speaking) (.start screened) [.enter 0 speaking.start 0] 3 _ :=
      leads_of_next (specialTurn_new 0 Std.HashSet.not_mem_empty)
        (leads_of_next rfl (leads_of_next rfl (leads_nil _)))
    rw [restrictSpecial_of_leads hrun (by decide)]
    decide +kernel
  · have hnew : ((0 : NodeId), RestrictCursor.at 1) ∉
        ((Pruning.start looped).come layered 0 layered.start).seen :=
      not_mem_seen_come (by decide) Std.HashSet.not_mem_empty
    have hrun : Leads (specialTurn ⟨looped.grammar, looped.graph.committedArrivals 0, false⟩
        layered) (.start looped) [.enter 0 layered.start 0] 9 _ :=
      leads_of_next (specialTurn_new 0 Std.HashSet.not_mem_empty) (leads_of_next rfl
        (.cons (leads_of_next (specialTurn_new 0 hnew) (leads_of_next rfl (leads_of_next rfl
            (leads_of_next rfl (leads_nil _)))))
          (leads_of_next rfl (leads_of_next rfl (leads_of_next rfl (leads_nil _))))))
    rw [restrictSpecial_of_leads hrun (by decide)]
    decide +kernel

end Session

end FeatureLogic
