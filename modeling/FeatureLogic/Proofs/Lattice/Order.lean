import Mathlib.Data.List.Nodup
import Mathlib.Data.List.Perm.Subperm
import FeatureLogic.Lattice.Order

/-!
Topological order of a draft. A draft whose links are in order (`Draft.Linked`) is put in an order
in which every type comes once and no type comes before one of its parents (`Draft.Ordered`).
-/

namespace FeatureLogic

/-- In a list where nothing comes before what it is related to, related things come in the other
order. -/
theorem idxOf_lt_idxOf_of_pairwise {list : List Nat} {R : Nat → Nat → Prop}
    (h : list.Pairwise fun x y => ¬ R x y) {x y : Nat} (hx : x ∈ list) (hy : y ∈ list) (hxy : R x y)
    (hne : x ≠ y) : list.idxOf y < list.idxOf x := by
  have hlx := List.idxOf_lt_length_of_mem hx
  have hly := List.idxOf_lt_length_of_mem hy
  rcases Nat.lt_trichotomy (list.idxOf x) (list.idxOf y) with hlt | heq | hgt
  · have := List.pairwise_iff_getElem.1 h _ _ hlx hly hlt
    rw [List.getElem_idxOf, List.getElem_idxOf] at this
    exact absurd hxy this
  · refine absurd ?_ hne
    rw [← List.getElem_idxOf hlx, ← List.getElem_idxOf hly]
    simp only [heq]
  · exact hgt

namespace Draft

/-- Parents and children tell of the same links, each link once, and the universal type is the one
type without parents. -/
structure Linked (d : Draft) : Prop where
  parents_size : d.parents.size = d.size
  children_size : d.children.size = d.size
  parent_lt : ∀ {t p}, p ∈ d.parentsOf t → p < d.size
  mem_childrenOf : ∀ {t p}, t ∈ d.childrenOf p ↔ p ∈ d.parentsOf t
  parents_nodup : ∀ t, (d.parentsOf t).Nodup
  children_nodup : ∀ t, (d.childrenOf t).Nodup
  parents_eq_nil : ∀ {t}, t < d.size → (d.parentsOf t = [] ↔ t = 0)

/-- All types of a draft, each once, none before one of its parents. -/
structure Ordered (d : Draft) (order : List Nat) : Prop where
  nodup : order.Nodup
  mem_iff : ∀ {t}, t ∈ order ↔ t < d.size
  parents_first : order.Pairwise fun t u => u ∉ d.parentsOf t
  irrefl : ∀ t, t ∉ d.parentsOf t

theorem parentsOf_of_le {d : Draft} (h : d.parents.size = d.size) {t : Nat} (ht : d.size ≤ t) :
    d.parentsOf t = [] := by
  rw [parentsOf, Array.getElem?_eq_none (by omega)]
  rfl

theorem Linked.child_lt {d : Draft} (h : d.Linked) {t p : Nat} (hp : p ∈ d.parentsOf t) :
    t < d.size := by
  by_contra hlt
  rw [parentsOf_of_le h.parents_size (by omega)] at hp
  cases hp

namespace Sorting

/-! ### Releasing children -/

theorem release_fold (children : List Nat) (hnd : children.Nodup) (s : Sorting) :
    (children.foldl release s).ordered = s.ordered ∧
      (children.foldl release s).pending.size = s.pending.size ∧
      (children.foldl release s).ready =
        s.ready ++ children.filter (fun c => s.pending[c]?.getD 0 - 1 = 0) ∧
      ∀ x, (children.foldl release s).pending[x]?.getD 0 =
        if x ∈ children then s.pending[x]?.getD 0 - 1 else s.pending[x]?.getD 0 := by
  induction children generalizing s with
  | nil => simp
  | cons c rest ih =>
    obtain ⟨hc, hrest⟩ := List.nodup_cons.1 hnd
    obtain ⟨ho, hs, hr, hp⟩ := ih hrest (s.release c)
    -- the first child has one parent less to wait for, and the rest wait as before
    have hget : ∀ x, (s.release c).pending[x]?.getD 0 =
        if x = c then s.pending[x]?.getD 0 - 1 else s.pending[x]?.getD 0 := by
      intro x
      simp only [release, Array.getElem?_setIfInBounds]
      by_cases hx : c = x
      · subst hx
        by_cases hlt : c < s.pending.size <;> simp [hlt]
      · simp [hx, Ne.symm hx]
    refine ⟨ho, by rw [List.foldl_cons, hs]; simp [release], ?_, ?_⟩
    · rw [List.foldl_cons, hr]
      have hfilter : rest.filter (fun x => (s.release c).pending[x]?.getD 0 - 1 = 0) =
          rest.filter (fun x => s.pending[x]?.getD 0 - 1 = 0) := by
        refine List.filter_congr fun x hx => ?_
        rw [hget, if_neg fun (h : x = c) => hc (h ▸ hx)]
      rw [hfilter]
      by_cases h0 : s.pending[c]?.getD 0 - 1 = 0 <;>
        simp [release, h0]
    · intro x
      rw [List.foldl_cons, hp, hget]
      by_cases hx : x = c
      · subst hx
        simp [hc]
      · simp [hx]

/-! ### The invariant of the walk -/

/-- What holds between two turns: counts are of unordered parents, and whatever is ordered or ready
has all its parents ordered. -/
structure Sound (d : Draft) (s : Sorting) : Prop where
  pending_size : s.pending.size = d.size
  pending_eq : ∀ t, s.pending[t]?.getD 0 =
    ((d.parentsOf t).filter fun p => p ∉ s.ordered).length
  nodup : (s.ordered ++ s.ready).Nodup
  lt_size : ∀ t ∈ s.ordered ++ s.ready, t < d.size
  parents_ordered : ∀ t ∈ s.ordered ++ s.ready, ∀ p ∈ d.parentsOf t, p ∈ s.ordered
  parents_first : s.ordered.Pairwise fun t u => t ∉ d.parentsOf u
  irrefl : ∀ t ∈ s.ordered, t ∉ d.parentsOf t

theorem sound_start {d : Draft} (h : d.Linked) : Sound d (start d) where
  pending_size := by simp [start, h.parents_size]
  pending_eq t := by
    simp only [start, Array.getElem?_map, parentsOf]
    cases d.parents[t]? <;> simp
  nodup := by
    simp only [start, List.nil_append]
    exact List.nodup_range.filter _
  lt_size := by
    intro t ht
    simp only [start, List.nil_append, List.mem_filter, List.mem_range] at ht
    exact ht.1
  parents_ordered := by
    intro t ht p hp
    simp only [start, List.nil_append, List.mem_filter, List.mem_range, Array.getElem?_map] at ht
    rw [parentsOf] at hp
    cases hl : d.parents[t]? with
    | none => simp [hl] at hp
    | some list =>
      have : list = [] := by simpa [hl] using ht.2
      simp [hl, this] at hp
  parents_first := List.Pairwise.nil
  irrefl := by simp [start]

section Turn

variable {d : Draft} (h : d.Linked) {s : Sorting} (hs : Sound d s) {t : Nat} {ready : List Nat}
  (hr : s.ready = t :: ready)
include hs hr

theorem Sound.not_mem_ordered : t ∉ s.ordered := fun hmem =>
  (List.nodup_append.1 hs.nodup).2.2 t hmem t (by simp [hr]) rfl

include h

/-- A child of `t` waits for `t` and for its other parents that are not ordered. -/
theorem Sound.pending_eq_add (x : Nat) : s.pending[x]?.getD 0 =
    ((d.parentsOf x).filter fun p => p ∉ t :: s.ordered).length +
      if x ∈ d.childrenOf t then 1 else 0 := by
  have htnot := hs.not_mem_ordered hr
  have hsplit : (d.parentsOf x).filter (fun p => p ∉ t :: s.ordered) =
      ((d.parentsOf x).filter fun p => p ∉ s.ordered).erase t := by
    rw [List.Nodup.erase_eq_filter ((h.parents_nodup x).filter _), List.filter_filter]
    refine List.filter_congr fun p _ => ?_
    by_cases hpt : p = t <;> simp [hpt]
  rw [hs.pending_eq, hsplit]
  by_cases hx : x ∈ d.childrenOf t
  · have hmem : t ∈ (d.parentsOf x).filter fun p => p ∉ s.ordered := by
      simp [h.mem_childrenOf.1 hx, htnot]
    rw [List.length_erase_of_mem hmem, if_pos hx]
    have := List.length_pos_of_mem hmem
    omega
  · have hmem : t ∉ (d.parentsOf x).filter fun p => p ∉ s.ordered := fun hm =>
      hx (h.mem_childrenOf.2 (List.mem_filter.1 hm).1)
    rw [List.erase_of_not_mem hmem, if_neg hx]
    rfl

/-- A child of `t` gets ready with `t` just when `t` is the last of its parents. -/
theorem Sound.released_iff {x : Nat} (hx : x ∈ d.childrenOf t) :
    s.pending[x]?.getD 0 - 1 = 0 ↔ ∀ p ∈ d.parentsOf x, p ∈ t :: s.ordered := by
  rw [hs.pending_eq_add h hr, if_pos hx, Nat.add_sub_cancel, List.length_eq_zero_iff,
    List.filter_eq_nil_iff]
  simp [or_iff_not_imp_left]

/-- One turn: the first ready type is ordered and its children are released. -/
theorem Sound.turn :
    Sound d ((d.childrenOf t).foldl release { s with ready, ordered := t :: s.ordered }) := by
  obtain ⟨ho, hsz, hrd, hp⟩ := release_fold (d.childrenOf t) (h.children_nodup t)
    { s with ready, ordered := t :: s.ordered }
  simp only at ho hsz hrd hp
  have ht : t ∈ s.ordered ++ s.ready := by simp [hr]
  have htnot := hs.not_mem_ordered hr
  -- a child of `t` still waits for `t`, so it is neither ordered nor ready
  have hchild : ∀ c ∈ d.childrenOf t, c ∉ s.ordered ++ s.ready := fun c hc hmem =>
    htnot (hs.parents_ordered c hmem t (h.mem_childrenOf.1 hc))
  refine ⟨?_, ?_, ?_, ?_, ?_, ?_, ?_⟩
  · rw [hsz, hs.pending_size]
  · intro x
    rw [hp, ho, hs.pending_eq_add h hr x]
    split <;> simp
  · rw [ho, hrd, ← List.append_assoc, List.nodup_append]
    refine ⟨?_, (h.children_nodup t).filter _, ?_⟩
    · have : (t :: (s.ordered ++ ready)).Perm (s.ordered ++ t :: ready) :=
        List.perm_middle.symm
      exact this.nodup_iff.2 (hr ▸ hs.nodup)
    · intro a ha b hb hab
      refine hchild b (List.mem_filter.1 hb).1 ?_
      rw [← hab, hr]
      simp only [List.cons_append, List.mem_cons, List.mem_append] at ha ⊢
      tauto
  · intro x hx
    rw [ho, hrd] at hx
    simp only [List.cons_append, List.mem_cons, List.mem_append] at hx
    rcases hx with rfl | hx | hx | hx
    · exact hs.lt_size _ ht
    · exact hs.lt_size _ (by simp [hx])
    · exact hs.lt_size _ (by simp [hr, hx])
    · exact h.child_lt (h.mem_childrenOf.1 (List.mem_filter.1 hx).1)
  · intro x hx p hpx
    rw [ho, hrd] at hx
    rw [ho]
    simp only [List.cons_append, List.mem_cons, List.mem_append] at hx
    rcases hx with rfl | hx | hx | hx
    · exact List.mem_cons_of_mem _ (hs.parents_ordered _ ht p hpx)
    · exact List.mem_cons_of_mem _ (hs.parents_ordered _ (by simp [hx]) p hpx)
    · exact List.mem_cons_of_mem _ (hs.parents_ordered _ (by simp [hr, hx]) p hpx)
    · obtain ⟨hxt, hx0⟩ := List.mem_filter.1 hx
      -- a child is released when the last of its parents is ordered
      exact (hs.released_iff h hr hxt).1 (by simpa using hx0) p hpx
  · rw [ho]
    refine List.pairwise_cons.2 ⟨fun u hu htu => ?_, hs.parents_first⟩
    exact htnot (hs.parents_ordered u (by simp [hu]) t htu)
  · intro u hu
    rw [ho] at hu
    rcases List.mem_cons.1 hu with rfl | hu
    · exact fun htt => htnot (hs.parents_ordered _ ht _ htt)
    · exact hs.irrefl u hu

end Turn

theorem Sound.drain {d : Draft} (h : d.Linked) (fuel : Nat) {s : Sorting} (hs : Sound d s) :
    Sound d (drain d fuel s) := by
  induction fuel generalizing s with
  | zero => exact hs
  | succ fuel ih =>
    unfold Sorting.drain
    split
    · exact hs
    · rename_i t ready hr
      exact ih (hs.turn h hr)

/-- A walk that has ordered as many types as there are has ordered each of them. -/
theorem Sound.perm_range {d : Draft} {s : Sorting} (hs : Sound d s)
    (hle : d.size ≤ s.ordered.length) : s.ordered.Perm (List.range d.size) := by
  have hsub : s.ordered ⊆ List.range d.size :=
    fun t ht => List.mem_range.2 (hs.lt_size t (List.mem_append_left _ ht))
  exact (List.subperm_of_subset (List.nodup_append.1 hs.nodup).1 hsub).perm_of_length_le
    (by simpa using hle)

end Sorting

/-- An order that is found is one. -/
theorem ordered_of_order {d : Draft} (h : d.Linked) {order : List Nat}
    (ho : d.order = .ok order) : d.Ordered order := by
  have hs := (Sorting.sound_start h).drain h d.size
  simp only [Draft.order] at ho
  split at ho
  · cases ho
  rename_i hlen
  cases ho
  have hnd := (List.nodup_append.1 hs.nodup).1
  have hmem : ∀ t, t ∈ (Sorting.drain d d.size (Sorting.start d)).ordered ↔ t < d.size := by
    exact fun t => (hs.perm_range (Nat.not_lt.1 hlen)).mem_iff.trans List.mem_range
  refine ⟨List.nodup_reverse.2 hnd, fun {t} => by simpa using hmem t,
    List.pairwise_reverse.2 hs.parents_first, fun t ht => ?_⟩
  exact hs.irrefl t ((hmem t).2 (h.parent_lt ht)) ht

theorem ordered_of_ordering {d : Draft} (h : d.Linked) {order : List Nat}
    (ho : d.ordering = .ok order) : d.Ordered order := by
  unfold ordering at ho
  split at ho
  · rename_i found hfound
    cases ho
    exact ordered_of_order h hfound
  · cases ho

/-- Parents have the smaller places. -/
theorem Ordered.idxOf_lt {d : Draft} (h : d.Linked) {order : List Nat} (ho : d.Ordered order)
    {t p : Nat} (hp : p ∈ d.parentsOf t) : order.idxOf p < order.idxOf t :=
  idxOf_lt_idxOf_of_pairwise ho.parents_first (ho.mem_iff.2 (h.child_lt hp))
    (ho.mem_iff.2 (h.parent_lt hp)) hp fun heq => ho.irrefl t (heq ▸ hp)

end Draft

end FeatureLogic
