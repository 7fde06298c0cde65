import Mathlib.Logic.Relation
import FeatureLogic.Lattice.Closure
import FeatureLogic.Proofs.Lattice.Draft

/-!
Putting a type into a linked draft. When every new child is below every new parent already, the
types that were there stand to one another as before, and the new type is above just what is below
one of its children and below just what is above one of its parents.
-/

open Relation

namespace FeatureLogic

namespace Draft

/-- The types that a chain of parents leads up to, the type itself included. -/
def Below (d : Draft) : Nat → Nat → Prop := ReflTransGen fun t p => p ∈ d.parentsOf t

theorem below_lt {d : Draft} (h : d.Linked) {t u : Nat} (htu : d.Below t u) (ht : t < d.size) :
    u < d.size := by
  rcases ReflTransGen.cases_tail htu with rfl | ⟨p, -, hp⟩
  · exact ht
  · exact h.parent_lt hp

/-- Nothing is above the universal type. -/
theorem eq_zero_of_below {d : Draft} (h : d.Linked) {u : Nat} (hu : d.Below 0 u) : u = 0 := by
  rcases ReflTransGen.cases_head hu with rfl | ⟨p, hp, -⟩
  · rfl
  · rw [(h.parents_eq_nil (h.child_lt hp)).2 rfl] at hp
    cases hp

/-- Along an order no two types are below each other. -/
theorem Ordered.antisymm {d : Draft} (h : d.Linked) {order : List Nat} (ho : d.Ordered order)
    {t u : Nat} (htu : d.Below t u) (hut : d.Below u t) : t = u := by
  have hle : ∀ {s v}, d.Below s v → s = v ∨ order.idxOf v < order.idxOf s := by
    intro s v hsv
    induction hsv with
    | refl => exact .inl rfl
    | tail _ hp ih =>
      have := ho.idxOf_lt h hp
      rcases ih with rfl | ih
      · exact .inr this
      · exact .inr (Nat.lt_trans this ih)
  rcases hle htu with heq | hlt
  · exact heq
  · rcases hle hut with heq | hgt
    · exact heq.symm
    · omega

section Insertion

variable {d : Draft} {name : String} {parents children : List Nat}

theorem size_insertBetween : (Closing.insertBetween d name parents children).size = d.size + 1 := by
  simp [Closing.insertBetween, size]

/-- What an insertion asks for: the lists name types of the draft, and every child is below every
parent and is not one of them. -/
structure Insertable (d : Draft) (parents children : List Nat) : Prop where
  parents_nodup : parents.Nodup
  children_nodup : children.Nodup
  parent_lt : ∀ p ∈ parents, p < d.size
  child_lt : ∀ t ∈ children, t < d.size
  parents_ne_nil : parents ≠ []
  zero_not_child : 0 ∉ children
  below : ∀ t ∈ children, ∀ p ∈ parents, d.Below t p
  apart : ∀ t ∈ children, t ∉ parents

theorem parentsOf_insertBetween (h : d.Linked) (hi : d.Insertable parents children) (t : Nat) :
    (Closing.insertBetween d name parents children).parentsOf t =
      if t = d.size then parents
      else if t ∈ children then (d.parentsOf t).filter (fun p => !parents.contains p) ++ [d.size]
      else d.parentsOf t := by
  simp only [parentsOf, Closing.insertBetween, Array.getElem?_push, size_modifyAll]
  rw [h.parents_size]
  split
  · rfl
  · rw [getD_modifyAll _ _ hi.children_nodup]
    by_cases ht : t ∈ children
    · simp [ht, h.parents_size, hi.child_lt t ht]
    · simp [ht]

theorem childrenOf_insertBetween (h : d.Linked) (hi : d.Insertable parents children) (p : Nat) :
    (Closing.insertBetween d name parents children).childrenOf p =
      if p = d.size then children
      else if p ∈ parents then (d.childrenOf p).filter (fun t => !children.contains t) ++ [d.size]
      else d.childrenOf p := by
  simp only [childrenOf, Closing.insertBetween, Array.getElem?_push, size_modifyAll]
  rw [h.children_size]
  split
  · rfl
  · rw [getD_modifyAll _ _ hi.parents_nodup]
    by_cases hp : p ∈ parents
    · simp [hp, h.children_size, hi.parent_lt p hp]
    · simp [hp]

theorem isLeaf_insertBetween (hl : d.leaf.size = d.size) (t : Nat) :
    (Closing.insertBetween d name parents children).isLeaf t =
      if t = d.size then false else d.isLeaf t := by
  simp only [isLeaf, Closing.insertBetween, Array.getElem?_push, hl]
  split <;> rfl

theorem Linked.not_child_size (h : d.Linked) (p : Nat) : d.size ∉ d.childrenOf p := fun hmem =>
  Nat.lt_irrefl _ (h.child_lt (h.mem_childrenOf.1 hmem))

theorem Linked.not_parent_size (h : d.Linked) (t : Nat) : d.size ∉ d.parentsOf t := fun hmem =>
  Nat.lt_irrefl _ (h.parent_lt hmem)

/-- The links of the new draft: the old ones but those from a new child to a new parent, and the
links of the new type. -/
theorem mem_parentsOf_insertBetween (h : d.Linked) (hi : d.Insertable parents children)
    {t p : Nat} : p ∈ (Closing.insertBetween d name parents children).parentsOf t ↔
      (t = d.size ∧ p ∈ parents) ∨ (t ∈ children ∧ p = d.size) ∨
      (p ∈ d.parentsOf t ∧ ¬ (t ∈ children ∧ p ∈ parents)) := by
  rw [parentsOf_insertBetween h hi]
  by_cases ht : t = d.size
  · subst ht
    have hnot : d.size ∉ children := fun hmem => Nat.lt_irrefl _ (hi.child_lt _ hmem)
    have hnil : d.parentsOf d.size = [] := parentsOf_of_le h.parents_size (Nat.le_refl _)
    simp [hnot, hnil]
  · by_cases hc : t ∈ children <;> simp [ht, hc]
    tauto

theorem mem_childrenOf_insertBetween (h : d.Linked) (hi : d.Insertable parents children)
    {t p : Nat} : t ∈ (Closing.insertBetween d name parents children).childrenOf p ↔
      p ∈ (Closing.insertBetween d name parents children).parentsOf t := by
  rw [mem_parentsOf_insertBetween h hi, childrenOf_insertBetween h hi]
  have hold := h.mem_childrenOf (t := t) (p := p)
  have hp : p ∈ parents → p ≠ d.size := fun hmem => Nat.ne_of_lt (hi.parent_lt p hmem)
  have ht : t ∈ children → t ≠ d.size := fun hmem => Nat.ne_of_lt (hi.child_lt t hmem)
  by_cases hps : p = d.size
  · subst hps
    have := h.not_parent_size t
    simp_all
  · by_cases hpp : p ∈ parents
    · simp only [hps, if_false, hpp, if_true, List.mem_append, List.mem_filter, List.mem_singleton,
        hold, List.contains_iff_mem, Bool.not_eq_true', ← Bool.not_eq_true, and_true]
      tauto
    · have : t = d.size → p ∉ d.parentsOf t := fun ht' hmem => by
        have := h.child_lt hmem
        omega
      simp only [hps, if_false, hpp, hold, and_false, false_or, not_false_eq_true, and_true]

theorem Linked.insertBetween (h : d.Linked) (hi : d.Insertable parents children) :
    (Closing.insertBetween d name parents children).Linked where
  parents_size := by
    simpa [Closing.insertBetween, size, size_modifyAll] using h.parents_size
  children_size := by
    simpa [Closing.insertBetween, size, size_modifyAll] using h.children_size
  parent_lt := by
    intro t p hp
    rw [size_insertBetween]
    -- a parent of the new type, the new type itself, or a parent from before
    rcases (mem_parentsOf_insertBetween h hi).1 hp with ⟨-, hp⟩ | ⟨-, rfl⟩ | ⟨hp, -⟩
    · exact Nat.lt_succ_of_lt (hi.parent_lt p hp)
    · exact Nat.lt_succ_self _
    · exact Nat.lt_succ_of_lt (h.parent_lt hp)
  mem_childrenOf := mem_childrenOf_insertBetween h hi
  parents_nodup := by
    intro t
    rw [parentsOf_insertBetween h hi]
    split
    · exact hi.parents_nodup
    · split
      · refine List.nodup_append.2 ⟨(h.parents_nodup t).filter _, List.nodup_singleton _, ?_⟩
        intro a ha b hb hab
        rw [hab, List.mem_singleton.1 hb] at ha
        exact h.not_parent_size t (List.mem_filter.1 ha).1
      · exact h.parents_nodup t
  children_nodup := by
    intro p
    rw [childrenOf_insertBetween h hi]
    split
    · exact hi.children_nodup
    · split
      · refine List.nodup_append.2 ⟨(h.children_nodup p).filter _, List.nodup_singleton _, ?_⟩
        intro a ha b hb hab
        rw [hab, List.mem_singleton.1 hb] at ha
        exact h.not_child_size p (List.mem_filter.1 ha).1
      · exact h.children_nodup p
  parents_eq_nil := by
    intro t ht
    rw [size_insertBetween] at ht
    rw [parentsOf_insertBetween h hi]
    have hpos : 0 < d.size := by
      obtain ⟨p, hp⟩ := List.exists_mem_of_ne_nil _ hi.parents_ne_nil
      exact Nat.zero_lt_of_lt (hi.parent_lt p hp)
    split
    · simp only [hi.parents_ne_nil, false_iff]
      omega
    · split
      · rename_i hc
        have : t ≠ 0 := fun h0 => hi.zero_not_child (h0 ▸ hc)
        simp [this]
      · exact h.parents_eq_nil (by omega)

/-! ## What is below what -/

theorem below_insertBetween_of_below (h : d.Linked) (hi : d.Insertable parents children)
    {t u : Nat} (htu : d.Below t u) :
    (Closing.insertBetween d name parents children).Below t u := by
  induction htu with
  | refl => exact ReflTransGen.refl
  | @tail s p _ hp ih =>
    by_cases hcut : s ∈ children ∧ p ∈ parents
    · -- the link was cut, and the way through the new type takes its place
      have h₁ : d.size ∈ (Closing.insertBetween d name parents children).parentsOf s :=
        (mem_parentsOf_insertBetween h hi).2 (.inr (.inl ⟨hcut.1, rfl⟩))
      have h₂ : p ∈ (Closing.insertBetween d name parents children).parentsOf d.size :=
        (mem_parentsOf_insertBetween h hi).2 (.inl ⟨rfl, hcut.2⟩)
      exact (ih.tail h₁).tail h₂
    · exact ih.tail ((mem_parentsOf_insertBetween h hi).2 (.inr (.inr ⟨hp, hcut⟩)))

/-- A way up to an old type, which may go through the new one, is there without the new one too,
from where it enters. -/
theorem below_of_below_insertBetween (h : d.Linked) (hi : d.Insertable parents children)
    {t u : Nat} (hu : u < d.size)
    (htu : (Closing.insertBetween d name parents children).Below t u) :
    (t ≠ d.size → d.Below t u) ∧ (t = d.size → ∃ p ∈ parents, d.Below p u) := by
  induction htu using ReflTransGen.head_induction_on with
  | refl => exact ⟨fun _ => ReflTransGen.refl, fun hsz => absurd hsz (Nat.ne_of_lt hu)⟩
  | @head t p hp _ ih =>
    rcases (mem_parentsOf_insertBetween h hi).1 hp with ⟨rfl, hnew⟩ | ⟨hc, rfl⟩ | ⟨hp, -⟩
    · refine ⟨fun hne => absurd rfl hne, fun _ => ⟨p, hnew, ?_⟩⟩
      exact ih.1 (Nat.ne_of_lt (hi.parent_lt p hnew))
    · refine ⟨fun _ => ?_, fun hsz => absurd hsz (Nat.ne_of_lt (hi.child_lt t hc))⟩
      obtain ⟨q, hq, hqu⟩ := ih.2 rfl
      exact (hi.below t hc q hq).trans hqu
    · have hpne : p ≠ d.size := Nat.ne_of_lt (h.parent_lt hp)
      exact ⟨fun _ => ReflTransGen.head hp (ih.1 hpne),
        fun hsz => absurd (h.child_lt hp) (by omega)⟩

theorem below_insertBetween (h : d.Linked) (hi : d.Insertable parents children) {t u : Nat}
    (ht : t < d.size) (hu : u < d.size) :
    (Closing.insertBetween d name parents children).Below t u ↔ d.Below t u :=
  ⟨fun htu => (below_of_below_insertBetween h hi hu htu).1 (Nat.ne_of_lt ht),
    below_insertBetween_of_below h hi⟩

theorem new_below_insertBetween (h : d.Linked) (hi : d.Insertable parents children) {u : Nat}
    (hu : u < d.size) : (Closing.insertBetween d name parents children).Below d.size u ↔
      ∃ p ∈ parents, d.Below p u := by
  refine ⟨fun hgu => (below_of_below_insertBetween h hi hu hgu).2 rfl, ?_⟩
  rintro ⟨p, hp, hpu⟩
  exact ReflTransGen.head ((mem_parentsOf_insertBetween h hi).2 (.inl ⟨rfl, hp⟩))
    (below_insertBetween_of_below h hi hpu)

theorem below_new_insertBetween (h : d.Linked) (hi : d.Insertable parents children) {t : Nat}
    (ht : t < d.size) : (Closing.insertBetween d name parents children).Below t d.size ↔
      ∃ c ∈ children, d.Below t c := by
  constructor
  · intro htg
    rcases ReflTransGen.cases_tail htg with hsz | ⟨c, htc, hc⟩
    · omega
    rcases (mem_parentsOf_insertBetween h hi).1 hc with ⟨-, hg⟩ | ⟨hmem, -⟩ | ⟨hg, -⟩
    · exact absurd (hi.parent_lt _ hg) (Nat.lt_irrefl _)
    · exact ⟨c, hmem, (below_insertBetween h hi ht (hi.child_lt c hmem)).1 htc⟩
    · exact absurd hg (h.not_parent_size c)
  · rintro ⟨c, hc, htc⟩
    exact (below_insertBetween_of_below h hi htc).tail
      ((mem_parentsOf_insertBetween h hi).2 (.inr (.inl ⟨hc, rfl⟩)))

/-- If no two types of the draft are below each other, none of the new one are. -/
theorem antisymm_insertBetween (h : d.Linked) (hi : d.Insertable parents children)
    (hanti : ∀ {t u}, t < d.size → d.Below t u → d.Below u t → t = u) {t u : Nat}
    (ht : t < d.size + 1)
    (htu : (Closing.insertBetween d name parents children).Below t u)
    (hut : (Closing.insertBetween d name parents children).Below u t) : t = u := by
  -- a new type and an old one below each other would put a new parent below a new child
  have hcross : ∀ {s}, s < d.size →
      (Closing.insertBetween d name parents children).Below s d.size →
      (Closing.insertBetween d name parents children).Below d.size s → False := by
    intro s hs hsg hgs
    obtain ⟨c, hc, hsc⟩ := (below_new_insertBetween h hi hs).1 hsg
    obtain ⟨p, hp, hps⟩ := (new_below_insertBetween h hi hs).1 hgs
    have := hanti (hi.child_lt c hc) (hi.below c hc p hp) (hps.trans hsc)
    exact hi.apart c hc (this ▸ hp)
  have hu := below_lt (h.insertBetween hi) htu (by rw [size_insertBetween]; exact ht)
  rw [size_insertBetween] at hu
  rcases Nat.lt_succ_iff_lt_or_eq.1 ht with ht | rfl <;>
    rcases Nat.lt_succ_iff_lt_or_eq.1 hu with hu | rfl
  · exact hanti ht ((below_insertBetween h hi ht hu).1 htu) ((below_insertBetween h hi hu ht).1 hut)
  · exact (hcross ht htu hut).elim
  · exact (hcross hu hut htu).elim
  · rfl

end Insertion

end Draft

end FeatureLogic
