import FeatureLogic.Proofs.Session.Pruning
import FeatureLogic.Proofs.Session.Restricting

/-!
Places of a restriction: nodes with the cursors at which they are come to along edges that are kept.
Where each node is come to at one cursor only (`Restrictor.OneCursor`), the restrictor alone tells
what a restriction in place leaves of a structure (`Session.leaves_restrict`), and this has a cycle
just when there is one along the edges that are kept (`Restrictor.Leaves.acyclic_iff`).
-/

open Relation

namespace FeatureLogic

namespace Layout

/-- The path leads along edges from `x` to the node. -/
inductive Leads (L : Layout) (x : NodeId) : List FeatureId → NodeId → Prop
  | nil : Leads L x [] x
  | snoc {path : List FeatureId} {n : NodeId} {e : Edge} (h : Leads L x path n)
    (he : e ∈ L.edges n) : Leads L x (path ++ [e.feature]) e.target

/-- There are no coreferences below `x`: two paths do not lead to one node. -/
def Unshared (L : Layout) (x : NodeId) : Prop :=
  ∀ ⦃n path path'⦄, L.Leads x path n → L.Leads x path' n → path = path'

end Layout

namespace Restrictor

/-! ## Places -/

/-- An edge that is kept at the first place leads to the second one. -/
def Step (r : Restrictor) (L : Layout) (p q : NodeId × RestrictCursor) : Prop :=
  ∃ e ∈ L.edges p.1, r.keeps p.2 e.feature = true ∧ (e.target, r.descend p.2 e.feature) = q

/-- Edges that are kept lead from the root to the place. -/
def Reach (r : Restrictor) (L : Layout) (root : NodeId) : NodeId × RestrictCursor → Prop :=
  ReflTransGen (r.Step L) (root, r.start)

/-- No node is come to at two different cursors. -/
def OneCursor (r : Restrictor) (L : Layout) (root : NodeId) : Prop :=
  ∀ ⦃n c c'⦄, r.Reach L root (n, c) → r.Reach L root (n, c') → c = c'

/-- The structure that is kept is cyclic: edges that are kept lead from a node back to it. -/
def KeepsCycle (r : Restrictor) (L : Layout) (root : NodeId) : Prop :=
  ∃ n c c', r.Reach L root (n, c) ∧ TransGen (r.Step L) (n, c) (n, c')

variable {r : Restrictor} {L M : Layout} {root n : NodeId} {c : RestrictCursor}
  {p : NodeId × RestrictCursor}

theorem Reach.keep (h : r.Reach L root (n, c)) {e : Edge} (he : e ∈ L.edges n)
    (hk : r.keeps c e.feature = true) : r.Reach L root (e.target, r.descend c e.feature) :=
  h.tail ⟨e, he, hk, rfl⟩

theorem Reach.reach (h : r.Reach L root p) : L.Reach root p.1 := by
  induction h with
  | refl => exact ReflTransGen.refl
  | tail _ hstep ih =>
    obtain ⟨e, he, -, rfl⟩ := hstep
    exact ih.edge he

/-- The cursor of a place is the one to which some path leads. -/
theorem Reach.exists_leads (h : r.Reach L root p) :
    ∃ path, L.Leads root path p.1 ∧ p.2 = r.cursorAt path := by
  induction h with
  | refl => exact ⟨[], .nil, rfl⟩
  | tail _ hstep ih =>
    obtain ⟨path, hpath, hcursor⟩ := ih
    obtain ⟨e, he, -, rfl⟩ := hstep
    refine ⟨path ++ [e.feature], hpath.snoc he, ?_⟩
    rw [cursorAt, List.foldl_append, hcursor]
    rfl

/-- Without rules there is one cursor. -/
theorem oneCursor_of_rules?_eq_none (h : r.rules? = none) (L : Layout) (root : NodeId) :
    r.OneCursor L root := by
  have hopen : ∀ {q}, r.Reach L root q → q.2 = .open := by
    intro q hq
    induction hq with
    | refl => simp [start, h]
    | tail _ hstep _ =>
      obtain ⟨e, -, -, rfl⟩ := hstep
      simp [descend, ruleAt?, h]
  exact fun n c c' hc hc' => (hopen hc).trans (hopen hc').symm

/-- Without coreferences one path leads to a node, and so to one cursor. -/
theorem oneCursor_of_unshared (h : L.Unshared root) (r : Restrictor) : r.OneCursor L root := by
  intro n c c' hc hc'
  obtain ⟨path, hpath, hcursor⟩ := hc.exists_leads
  obtain ⟨path', hpath', hcursor'⟩ := hc'.exists_leads
  have hcursor : c = r.cursorAt path := hcursor
  have hcursor' : c' = r.cursorAt path' := hcursor'
  rw [hcursor, hcursor', h hpath hpath']

/-- A list that has whatever its places lead to along kept edges tells the places. -/
theorem oneCursor_of_mem (places : List (NodeId × RestrictCursor))
    (hstart : (root, r.start) ∈ places)
    (hclosed : ∀ p ∈ places, ∀ e ∈ L.edges p.1, r.keeps p.2 e.feature = true →
      (e.target, r.descend p.2 e.feature) ∈ places)
    (hone : ∀ p ∈ places, ∀ q ∈ places, p.1 = q.1 → p.2 = q.2) : r.OneCursor L root := by
  have hmem : ∀ {q}, r.Reach L root q → q ∈ places := by
    intro q hq
    induction hq with
    | refl => exact hstart
    | tail _ hstep ih =>
      obtain ⟨e, he, hk, rfl⟩ := hstep
      exact hclosed _ ih e he hk
  exact fun n c c' hc hc' => hone _ (hmem hc) _ (hmem hc') rfl

/-! ## What is left -/

/-- The second layout is what the restrictor leaves of the first one below the root. -/
structure Leaves (r : Restrictor) (l : Lattice) (L : Layout) (root : NodeId) (M : Layout) :
    Prop where
  type_eq : ∀ {n c}, r.Reach L root (n, c) → M.type n = (r.generalize c (L.type n) l).1
  edges_eq : ∀ {n c}, r.Reach L root (n, c) →
    M.edges n = (L.edges n).filter fun e => r.keeps c e.feature

section Leaves

variable {l : Lattice} (h : r.Leaves l L root M)
include h

theorem Leaves.mem_edges_iff (hn : r.Reach L root (n, c)) {e : Edge} :
    e ∈ M.edges n ↔ e ∈ L.edges n ∧ r.keeps c e.feature = true := by
  rw [h.edges_eq hn, List.mem_filter]

/-- What is left below a node is what edges that are kept lead to. -/
theorem Leaves.reach_iff (hp : r.Reach L root p) {m : NodeId} :
    M.Reach p.1 m ↔ ∃ c, ReflTransGen (r.Step L) p (m, c) := by
  constructor
  · intro hm
    induction hm with
    | refl => exact ⟨p.2, ReflTransGen.refl⟩
    | tail _ hstep ih =>
      obtain ⟨c, hc⟩ := ih
      obtain ⟨e, he, rfl⟩ := hstep
      obtain ⟨he, hk⟩ := (h.mem_edges_iff (hp.trans hc)).1 he
      exact ⟨_, hc.tail ⟨e, he, hk, rfl⟩⟩
  · have hdown : ∀ {q}, ReflTransGen (r.Step L) p q → M.Reach p.1 q.1 := by
      intro q hq
      induction hq with
      | refl => exact ReflTransGen.refl
      | tail hq hstep ih =>
        obtain ⟨e, he, hk, rfl⟩ := hstep
        exact ih.edge ((h.mem_edges_iff (hp.trans hq)).2 ⟨he, hk⟩)
    exact fun ⟨_, hc⟩ => hdown hc

/-- What is left has a cycle just when the edges that are kept make one. -/
theorem Leaves.acyclic_iff : M.Acyclic root ↔ ¬ r.KeepsCycle L root := by
  have hroot : ∀ {m}, M.Reach root m ↔ ∃ c, r.Reach L root (m, c) :=
    h.reach_iff (p := (root, r.start)) ReflTransGen.refl
  constructor
  · rintro hacyclic ⟨n, c, c', hn, hcycle⟩
    obtain ⟨_, ⟨e, he, hk, rfl⟩, hback⟩ := TransGen.head'_iff.1 hcycle
    have hedge := (h.mem_edges_iff hn).2 ⟨he, hk⟩
    have hback := (h.reach_iff (hn.keep he hk)).2 ⟨c', hback⟩
    exact hacyclic (hroot.2 ⟨c, hn⟩) (TransGen.head'_iff.2 ⟨_, ⟨e, hedge, rfl⟩, hback⟩)
  · intro hnone n hn hcycle
    obtain ⟨c, hc⟩ := hroot.1 hn
    obtain ⟨_, ⟨e, he, rfl⟩, hback⟩ := TransGen.head'_iff.1 hcycle
    obtain ⟨he, hk⟩ := (h.mem_edges_iff hc).1 he
    obtain ⟨c', hback⟩ := (h.reach_iff (hc.keep he hk)).1 hback
    exact hnone ⟨n, c, c', hc, TransGen.head'_iff.2 ⟨_, ⟨e, he, hk, rfl⟩, hback⟩⟩

end Leaves

end Restrictor

/-! ## Restriction in place -/

namespace Pruning

variable {r : Restrictor} {s : Session} {root : NodeId} {p p' : Pruning}
  {n : NodeId} {c : RestrictCursor} {waiting : List (NodeId × RestrictCursor)}

/-- What holds besides between two turns when each node is come to at one cursor: where the walk is
and was are places, and a node is restricted at its place, or as it was. -/
structure RestrictsOnce (r : Restrictor) (s : Session) (root : NodeId) (p : Pruning)
    (waiting : List (NodeId × RestrictCursor)) : Prop where
  restricts : Restricts r s root p waiting
  reach : ∀ place, place ∈ p.seen ∨ place ∈ waiting → r.Reach s.graph.layout root place
  seen : ∀ {n c}, (n, c) ∈ p.seen →
    (n < s.graph.size → p.session.graph.type n =
      (r.generalize c (s.graph.type n) s.grammar.lattice).1) ∧
    p.session.graph.edges n = (s.graph.edges n).filter fun e => r.keeps c e.feature
  unseen : ∀ {n}, (∀ c, (n, c) ∉ p.seen) →
    p.session.graph.type n = s.graph.type n ∧ p.session.graph.edges n = s.graph.edges n

theorem restrictsOnce_start (s : Session) (root : NodeId) (r : Restrictor) :
    RestrictsOnce r s root (.start s) [(root, r.start)] where
  restricts := restricts_start s root r
  reach place h := by
    rcases h with h | h
    · exact absurd h Std.HashSet.not_mem_empty
    · obtain rfl := List.mem_singleton.1 h
      exact ReflTransGen.refl
  seen h := absurd h Std.HashSet.not_mem_empty
  unseen _ := ⟨rfl, rfl⟩

section Visit

variable (hs : s.grammar.Sound) (hone : r.OneCursor s.graph.layout root)
  (h : RestrictsOnce r s root p ((n, c) :: waiting)) (hvisits : Visits r p (n, c) p')
  (hnew : (n, c) ∉ p.seen)
include hone h hnew

/-- A node that is come to for the first time has not been changed. -/
theorem RestrictsOnce.unchanged :
    (∀ c', (n, c') ∉ p.seen) ∧ p.session.graph.type n = s.graph.type n ∧
      p.session.graph.edges n = s.graph.edges n := by
  have hunseen : ∀ c', (n, c') ∉ p.seen := by
    intro c' hc'
    have hcursor := hone (h.reach _ (.inr (List.mem_cons_self ..))) (h.reach _ (.inl hc'))
    exact hnew (hcursor ▸ hc')
  exact ⟨hunseen, h.unseen hunseen⟩

include hs hvisits

theorem RestrictsOnce.visit (hrestricts : Restricts r s root p' ((p'.session.graph.edges n).map
      (fun e => (e.target, r.descend c e.feature)) ++ waiting)) :
    RestrictsOnce r s root p' ((p'.session.graph.edges n).map
      (fun e => (e.target, r.descend c e.feature)) ++ waiting) := by
  obtain ⟨hunseen, htype, hedges⟩ := h.unchanged hone hnew
  have hplace : r.Reach s.graph.layout root (n, c) := h.reach _ (.inr (List.mem_cons_self ..))
  have hkept : p'.session.graph.edges n =
      (s.graph.edges n).filter fun e => r.keeps c e.feature := by
    rw [hvisits.edges_eq, if_pos rfl, hedges]
  have hothers : ∀ {m}, m ≠ n → p'.session.graph.type m = p.session.graph.type m ∧
      p'.session.graph.edges m = p.session.graph.edges m := by
    intro m hm
    exact ⟨(hvisits.type_eq m).trans (if_neg fun heq => hm heq.1),
      (hvisits.edges_eq m).trans (if_neg hm)⟩
  -- the node is visited at this one place, so that what is said of the others stays
  refine ⟨hrestricts, fun q hq => ?_, fun {m c'} hm => ?_, fun {m} hm => ?_⟩
  · rcases hq with hq | hq
    · rcases (hvisits.mem_seen q).1 hq with rfl | hq
      · exact hplace
      · exact h.reach q (.inl hq)
    · rcases List.mem_append.1 hq with hq | hq
      · obtain ⟨e, he, rfl⟩ := List.mem_map.1 hq
        rw [hkept] at he
        obtain ⟨he, hk⟩ := List.mem_filter.1 he
        exact hplace.keep he hk
      · exact h.reach q (.inr (List.mem_cons_of_mem _ hq))
  · rcases (hvisits.mem_seen _).1 hm with heq | hm
    · cases heq
      refine ⟨fun hn => ?_, hkept⟩
      have hlattice := h.restricts.grammar.sound hs.lattice
      have hakin : p.session.grammar.lattice.Akin s.grammar.lattice :=
        Lattice.akin_of_sound hlattice.1 hs.lattice hlattice.2.symm
      rw [hvisits.type_eq, if_pos ⟨rfl, h.restricts.size_eq.symm ▸ hn⟩, htype]
      exact (Restrictor.akin_generalize hakin r c _).1
    · have hne : m ≠ n := by
        rintro rfl
        exact hunseen c' hm
      rw [(hothers hne).1, (hothers hne).2]
      exact h.seen hm
  · have hne : m ≠ n := by
      rintro rfl
      exact hm c ((hvisits.mem_seen _).2 (.inl rfl))
    rw [(hothers hne).1, (hothers hne).2]
    exact h.unseen fun c' hc' => hm c' ((hvisits.mem_seen _).2 (.inr hc'))

end Visit

theorem keeps_restrictsOnce (hs : s.grammar.Sound)
    (hone : r.OneCursor s.graph.layout root) :
    Agenda.Keeps (turn r) (RestrictsOnce r s root) where
  next {p place waiting p' places} h ht := by
    have hrestricts := (keeps_restricts hs).next h.restricts ht
    obtain ⟨-, rfl, rfl⟩ | ⟨hnew, hvisits, rfl⟩ := turn_cases ht
    · exact { h with
        restricts := hrestricts
        reach := fun q hq => h.reach q (hq.imp_right (List.mem_cons_of_mem _)) }
    · exact h.visit hs hone hvisits hnew hrestricts

/-- What the turns of a restriction keep holds of what it comes to. -/
theorem exists_restrict {s : Session} (hs : s.grammar.Sound)
    {Inv : Pruning → List (NodeId × RestrictCursor) → Prop} (hk : Agenda.Keeps (turn r) Inv)
    (hstart : Inv (.start s) [(root, r.start)]) :
    ∃ p, Inv p [] ∧ s.restrict root r = p.session.invalidate := by
  unfold Session.restrict
  cases hrun : Agenda.run (turn r) (r.cursorBound * s.graph.weight) (.start s) [(root, r.start)] with
  | done p => exact ⟨p, hk.done hstart hrun, by simp only [hrun]; rfl⟩
  | halted p answer => exact answer.elim
  | spent p waiting => exact absurd hrun (run_turn_ne_spent hs root r p waiting)

/-- When no place waits, all places have been come to. -/
theorem RestrictsOnce.mem_seen (h : RestrictsOnce r s root p []) {q : NodeId × RestrictCursor}
    (hq : r.Reach s.graph.layout root q) : q ∈ p.seen := by
  induction hq with
  | refl => exact h.restricts.begun.resolve_right List.not_mem_nil
  | @tail place _ _ hstep ih =>
    obtain ⟨n, c⟩ := place
    obtain ⟨e, he, hk, rfl⟩ := hstep
    have hleft : e ∈ p.session.graph.edges n := by
      rw [(h.seen ih).2]
      exact List.mem_filter.2 ⟨he, hk⟩
    exact (h.restricts.keeps ih hleft).2.resolve_right List.not_mem_nil

end Pruning

namespace Session

/-- Where each node is come to at one cursor, a restriction in place leaves what the restrictor tells
of the committed structure. -/
theorem leaves_restrict {s : Session} (hs : s.grammar.Sound) (hlead : s.graph.EdgesLead)
    {root : Nat} (hroot : root < s.graph.size) {r : Restrictor}
    (hone : r.OneCursor s.graph.layout root) :
    r.Leaves s.grammar.lattice s.graph.layout root (s.restrict root r).graph.layout := by
  obtain ⟨p, h, heq⟩ := Pruning.exists_restrict hs (Pruning.keeps_restrictsOnce hs hone)
    (Pruning.restrictsOnce_start s root r)
  rw [heq, invalidate, mapGraph, Graph.layout_invalidate]
  exact ⟨fun {n c} hn => (h.seen (h.mem_seen hn)).1 (Graph.Below.lt hlead hroot hn.reach),
    fun hn => (h.seen (h.mem_seen hn)).2⟩

end Session

end FeatureLogic
