import FeatureLogic.Proofs.Lattice.Codes

/-!
When a draft has an order. The walk that orders a draft ends when nothing is ready, and a type that
is never ready waits for a parent that is not either; so an order is found just when the links to
parents run in no circle (`Draft.exists_ordering_iff`).
-/

open Relation

namespace FeatureLogic

namespace Draft

/-- No chain of parents leads from a type back to it. -/
def Acyclic (d : Draft) : Prop := ∀ t, ¬ TransGen (fun t p => p ∈ d.parentsOf t) t t

theorem acyclic_of_antisymm {d : Draft} (h : d.Linked) (hirrefl : ∀ t, t ∉ d.parentsOf t)
    (hanti : ∀ {t u}, t < d.size → d.Below t u → d.Below u t → t = u) : d.Acyclic := by
  intro t htt
  obtain ⟨p, hp, hpt⟩ := TransGen.head'_iff.1 htt
  have heq := hanti (h.child_lt hp) (ReflTransGen.single hp) hpt
  exact hirrefl t (heq ▸ hp)

namespace Sorting

/-- What has all its parents ordered is ordered or ready. -/
def Complete (d : Draft) (s : Sorting) : Prop :=
  ∀ t < d.size, (∀ p ∈ d.parentsOf t, p ∈ s.ordered) → t ∈ s.ordered ++ s.ready

theorem complete_start {d : Draft} (h : d.Linked) : Complete d (start d) := by
  intro t ht hparents
  have hnil : d.parentsOf t = [] :=
    List.eq_nil_iff_forall_not_mem.2 fun p hp => List.not_mem_nil (hparents p hp)
  have hlt : t < d.parents.size := h.parents_size.symm ▸ ht
  rw [parentsOf, Array.getElem?_eq_getElem hlt, Option.getD_some] at hnil
  simp [start, ht, hlt, hnil]

/-- The child that waits for its last parent is ready when this parent is ordered. -/
theorem Complete.turn {d : Draft} (h : d.Linked) {s : Sorting} (hs : Sound d s)
    (hc : Complete d s) {t : Nat} {ready : List Nat} (hr : s.ready = t :: ready) :
    Complete d ((d.childrenOf t).foldl release { s with ready, ordered := t :: s.ordered }) := by
  obtain ⟨ho, -, hrd, -⟩ := release_fold (d.childrenOf t) (h.children_nodup t)
    { s with ready, ordered := t :: s.ordered }
  simp only at ho hrd
  intro u hu hparents
  rw [ho] at hparents ⊢
  rw [hrd]
  by_cases hut : u ∈ d.childrenOf t
  · have hready : u ∈ (d.childrenOf t).filter fun c => s.pending[c]?.getD 0 - 1 = 0 :=
      List.mem_filter.2 ⟨hut, by simpa using (hs.released_iff h hr hut).2 hparents⟩
    simp only [List.mem_append]
    exact .inr (.inr hready)
  · have hbefore : ∀ p ∈ d.parentsOf u, p ∈ s.ordered := by
      intro p hp
      rcases List.mem_cons.1 (hparents p hp) with rfl | hmem
      · exact absurd (h.mem_childrenOf.2 hp) hut
      · exact hmem
    have hmem := hc u hu hbefore
    rw [hr] at hmem
    simp only [List.mem_append, List.mem_cons] at hmem ⊢
    tauto

theorem Complete.drain {d : Draft} (h : d.Linked) (fuel : Nat) {s : Sorting} (hs : Sound d s)
    (hc : Complete d s) : Complete d (drain d fuel s) := by
  induction fuel generalizing s with
  | zero => exact hc
  | succ fuel ih =>
    unfold Sorting.drain
    split
    · exact hc
    · rename_i t ready hr
      exact ih (hs.turn h hr) (hc.turn h hs hr)

/-- Each turn orders a type, so a walk stops because nothing is ready or has ordered as many types
as it has turns. -/
theorem drain_stops {d : Draft} (h : d.Linked) (fuel : Nat) (s : Sorting) :
    (drain d fuel s).ready = [] ∨ s.ordered.length + fuel ≤ (drain d fuel s).ordered.length := by
  induction fuel generalizing s with
  | zero => exact .inr (Nat.le_refl _)
  | succ fuel ih =>
    unfold Sorting.drain
    split
    · rename_i hr
      exact .inl hr
    · rename_i t ready hr
      have ho := (release_fold (d.childrenOf t) (h.children_nodup t)
        { s with ready, ordered := t :: s.ordered }).1
      refine (ih _).imp_right fun hle => ?_
      rw [ho, List.length_cons] at hle
      omega

end Sorting

/-! ### What is never ordered -/

/-- Some chain of parents leads from the type into a circle, or the type is on one. -/
def LeadsToCircle (d : Draft) (t : Nat) : Prop :=
  ∃ c, d.Below t c ∧ TransGen (fun t p => p ∈ d.parentsOf t) c c

/-- A type leads into a circle through one of its parents. -/
theorem leadsToCircle_iff_parent {d : Draft} {t : Nat} :
    d.LeadsToCircle t ↔ ∃ p ∈ d.parentsOf t, d.LeadsToCircle p := by
  constructor
  · rintro ⟨c, htc, hc⟩
    rcases htc.cases_head with rfl | ⟨p, hp, hpc⟩
    · obtain ⟨p, hp, hpc⟩ := TransGen.head'_iff.1 hc
      exact ⟨p, hp, _, hpc, hc⟩
    · exact ⟨p, hp, c, hpc, hc⟩
  · rintro ⟨p, hp, c, hpc, hc⟩
    exact ⟨c, hpc.head hp, hc⟩

namespace Sorting

/-- Along the links to parents the ordered types were ordered earlier and earlier. -/
theorem Sound.idxOf_lt {d : Draft} {s : Sorting} (hs : Sound d s) {t p : Nat} (ht : t ∈ s.ordered)
    (hp : p ∈ d.parentsOf t) : s.ordered.idxOf t < s.ordered.idxOf p :=
  idxOf_lt_idxOf_of_pairwise (R := fun p t => p ∈ d.parentsOf t) hs.parents_first
    (hs.parents_ordered t (List.mem_append_left _ ht) p hp) ht hp
    fun heq => hs.irrefl t ht (heq ▸ hp)

theorem Sound.mem_of_below {d : Draft} {s : Sorting} (hs : Sound d s) {t u : Nat}
    (ht : t ∈ s.ordered) (htu : d.Below t u) : u ∈ s.ordered := by
  induction htu with
  | refl => exact ht
  | tail _ hp ih => exact hs.parents_ordered _ (List.mem_append_left _ ih) _ hp

/-- Nothing that is ordered leads into a circle. -/
theorem Sound.not_leadsToCircle {d : Draft} {s : Sorting} (hs : Sound d s) {t : Nat}
    (ht : t ∈ s.ordered) : ¬ d.LeadsToCircle t := by
  rintro ⟨c, htc, hc⟩
  have hco := hs.mem_of_below ht htc
  have hlt : ∀ {u}, TransGen (fun t p => p ∈ d.parentsOf t) c u →
      s.ordered.idxOf c < s.ordered.idxOf u := by
    intro u hcu
    induction hcu with
    | single hp => exact hs.idxOf_lt hco hp
    | tail hcu hp ih =>
      exact Nat.lt_trans ih (hs.idxOf_lt (hs.mem_of_below hco hcu.to_reflTransGen) hp)
  exact Nat.lt_irrefl _ (hlt hc)

/-- When nothing is ready, what is not ordered waits for a parent that is not ordered either; so it
leads into a circle. -/
theorem Complete.leadsToCircle {d : Draft} (h : d.Linked) {s : Sorting} (hc : Complete d s)
    (hready : s.ready = []) {t : Nat} (ht : t < d.size) (hnot : t ∉ s.ordered) :
    d.LeadsToCircle t := by
  classical
  by_contra hleads
  have hcircle : ∀ {u}, d.Below t u → ¬ TransGen (fun t p => p ∈ d.parentsOf t) u u :=
    fun htu hu => hleads ⟨_, htu, hu⟩
  -- of the types above `t` that are not ordered, one has none of the others above it
  obtain ⟨m, hm, -, hgreatest⟩ := Codes.exists_greatest d.Below
    ((List.range d.size).filter fun u => u ∉ s.ordered ∧ d.Below t u) (fun _ => ReflTransGen.refl)
    (fun hxy hyz => hxy.trans hyz)
    (fun x hx y _ hxy hyx => by
      have htx : d.Below t x := by simpa using (of_decide_eq_true (List.mem_filter.1 hx).2).2
      rcases reflTransGen_iff_eq_or_transGen.1 hxy with heq | hxy
      · exact heq.symm
      · exact absurd (hxy.trans_left hyx) (hcircle htx))
    (List.mem_filter.2 ⟨List.mem_range.2 ht, by simpa using ⟨hnot, ReflTransGen.refl⟩⟩)
  obtain ⟨hmsize, hm⟩ := List.mem_filter.1 hm
  obtain ⟨hmnot, htm⟩ := of_decide_eq_true hm
  have hmem := hc m (List.mem_range.1 hmsize) fun p hp => by
    by_contra hpnot
    refine hgreatest p (List.mem_filter.2 ⟨List.mem_range.2 (h.parent_lt hp), ?_⟩)
      (fun heq => hcircle htm (TransGen.single (heq ▸ hp))) (ReflTransGen.single hp)
    exact decide_eq_true ⟨hpnot, htm.tail hp⟩
  rw [hready, List.append_nil] at hmem
  exact hmnot hmem

end Sorting

/-- The walk orders the types that do not lead into a circle, and no others. -/
theorem mem_ordered_iff {d : Draft} (h : d.Linked) {t : Nat} (ht : t < d.size) :
    t ∈ (Sorting.drain d d.size (Sorting.start d)).ordered ↔ ¬ d.LeadsToCircle t := by
  have hs := (Sorting.sound_start h).drain h d.size
  have hc := (Sorting.complete_start h).drain h d.size (Sorting.sound_start h)
  have hstop := Sorting.drain_stops h d.size (Sorting.start d)
  refine ⟨hs.not_leadsToCircle, fun hleads => ?_⟩
  rcases hstop with hready | hlen
  · by_contra hnot
    exact hleads (hc.leadsToCircle h hready ht hnot)
  · have hperm := hs.perm_range (Nat.le_trans (Nat.le_add_left _ _) hlen)
    exact hperm.mem_iff.2 (List.mem_range.2 ht)

/-- What waits for a parent at the end of the walk leads into a circle. -/
theorem pending_pos_iff {d : Draft} (h : d.Linked) {t : Nat} :
    0 < (Sorting.drain d d.size (Sorting.start d)).pending[t]?.getD 0 ↔ d.LeadsToCircle t := by
  have hs := (Sorting.sound_start h).drain h d.size
  rw [hs.pending_eq, List.length_pos_iff_exists_mem, leadsToCircle_iff_parent]
  refine exists_congr fun p => ?_
  rw [List.mem_filter]
  refine and_congr_right fun hp => ?_
  rw [decide_eq_true_iff, mem_ordered_iff h (h.parent_lt hp), not_not]

theorem size_le_ordered_iff {d : Draft} (h : d.Linked) :
    d.size ≤ (Sorting.drain d d.size (Sorting.start d)).ordered.length ↔
      ∀ t < d.size, ¬ d.LeadsToCircle t := by
  have hs := (Sorting.sound_start h).drain h d.size
  constructor
  · intro hle t ht
    exact (mem_ordered_iff h ht).1 ((hs.perm_range hle).mem_iff.2 (List.mem_range.2 ht))
  · intro hnone
    have hall : List.range d.size ⊆ (Sorting.drain d d.size (Sorting.start d)).ordered :=
      fun t ht => (mem_ordered_iff h (List.mem_range.1 ht)).2 (hnone t (List.mem_range.1 ht))
    simpa using (List.subperm_of_subset List.nodup_range hall).length_le

/-- What is reported in place of an order is the first type that leads into a circle. -/
theorem order_eq_error_iff {d : Draft} (h : d.Linked) {t : Nat} :
    d.order = .error t ↔ t < d.size ∧ d.LeadsToCircle t ∧ ∀ u < t, ¬ d.LeadsToCircle u := by
  have hfind : ∀ {u}, (List.range d.size).find?
      (fun u => 0 < (Sorting.drain d d.size (Sorting.start d)).pending[u]?.getD 0) = some u ↔
        u < d.size ∧ d.LeadsToCircle u ∧ ∀ v < u, ¬ d.LeadsToCircle v := by
    intro u
    simp only [List.find?_range_eq_some, decide_eq_true_eq, pending_pos_iff h,
      Bool.not_eq_true', decide_eq_false_iff_not, List.mem_range]
    tauto
  have hall := size_le_ordered_iff h
  rw [order, ← hfind]
  split
  · rename_i hlt
    have hsome : ∃ u, (List.range d.size).find?
        (fun u => 0 < (Sorting.drain d d.size (Sorting.start d)).pending[u]?.getD 0) = some u := by
      by_contra hnone
      rw [← Option.ne_none_iff_exists', not_not, List.find?_eq_none] at hnone
      refine Nat.not_le.2 hlt (hall.2 fun t ht hleads => hnone t (List.mem_range.2 ht) ?_)
      exact decide_eq_true ((pending_pos_iff h).2 hleads)
    obtain ⟨u, hu⟩ := hsome
    rw [hu, Option.getD_some, Except.error.injEq, Option.some.injEq]
  · rename_i hle
    refine iff_of_false (by simp) fun hsome => ?_
    obtain ⟨ht, hleads, -⟩ := hfind.1 hsome
    exact hall.1 (Nat.not_lt.1 hle) t ht hleads

theorem acyclic_iff_leadsToCircle {d : Draft} (h : d.Linked) :
    d.Acyclic ↔ ∀ t < d.size, ¬ d.LeadsToCircle t := by
  refine ⟨fun ha t _ ⟨c, _, hc⟩ => ha c hc, fun hnone t ht => ?_⟩
  obtain ⟨p, hp, -⟩ := TransGen.head'_iff.1 ht
  exact hnone t (h.child_lt hp) ⟨t, ReflTransGen.refl, ht⟩

/-- A draft has an order just when its links run in no circle. -/
theorem exists_ordering_iff {d : Draft} (h : d.Linked) :
    (∃ order, d.ordering = .ok order) ↔ d.Acyclic := by
  rw [acyclic_iff_leadsToCircle h, ← size_le_ordered_iff h, ordering, order]
  split <;> split at * <;> simp_all

end Draft

end FeatureLogic
