import Mathlib.Data.Finset.Card
import FeatureLogic.Proofs.Lattice.Insertion

/-!
Codes that are worked out from the bottom up. When the code of every type is the type's own number
together with the codes of its children, and children have the larger numbers, the code of a type
is the set of the types below it.
-/

open Relation

namespace FeatureLogic

namespace BitSet

/-- A fold that adds to a set what each entry of a list stands for. -/
theorem contains_foldl {step : BitSet → Nat → BitSet} {adds : Nat → Nat → Prop}
    (hstep : ∀ code x bit, (step code x).contains bit = true ↔
      code.contains bit = true ∨ adds x bit) (list : List Nat) (code : BitSet) (bit : Nat) :
    (list.foldl step code).contains bit = true ↔
      code.contains bit = true ∨ ∃ x ∈ list, adds x bit := by
  induction list generalizing code with
  | nil => simp
  | cons x rest ih =>
    rw [List.foldl_cons, ih, hstep]
    simp [or_assoc]

end BitSet

namespace Codes

/-- Entries that are set from the last one down, each from the entries after it. -/
theorem getElem?_foldr_set {α : Type} (f : Nat → Array α → α) (n : Nat) (init : Array α)
    (hsize : init.size = n)
    (hf : ∀ i < n, ∀ a a' : Array α, (∀ j, i < j → a[j]? = a'[j]?) → f i a = f i a') :
    ((List.range n).foldr (fun i c => c.setIfInBounds i (f i c)) init).size = n ∧
      ∀ i < n, ((List.range n).foldr (fun i c => c.setIfInBounds i (f i c)) init)[i]? =
        some (f i ((List.range n).foldr (fun i c => c.setIfInBounds i (f i c)) init)) := by
  have hgen : ∀ m k, k + m = n →
      ((List.range' k m).foldr (fun i c => c.setIfInBounds i (f i c)) init).size = n ∧
      ∀ i, k ≤ i → i < n →
        ((List.range' k m).foldr (fun i c => c.setIfInBounds i (f i c)) init)[i]? =
          some (f i ((List.range' k m).foldr (fun i c => c.setIfInBounds i (f i c)) init)) := by
    intro m
    induction m with
    | zero =>
      intro k hk
      exact ⟨by simpa using hsize, fun i h₁ h₂ => by omega⟩
    | succ m ih =>
      intro k hk
      obtain ⟨hs, hget⟩ := ih (k + 1) (by omega)
      rw [List.range'_succ, List.foldr_cons]
      generalize hr : (List.range' (k + 1) m).foldr
        (fun i c => c.setIfInBounds i (f i c)) init = r at hs hget ⊢
      -- to set an entry leaves those after it alone, and it depends on no other
      have hlater : ∀ j, k < j → r[j]? = (r.setIfInBounds k (f k r))[j]? := by
        intro j hj
        rw [Array.getElem?_setIfInBounds, if_neg (by omega)]
      refine ⟨by simpa using hs, fun i h₁ h₂ => ?_⟩
      rcases Nat.eq_or_lt_of_le h₁ with rfl | hlt
      · rw [← hf k (by omega) r _ hlater, Array.getElem?_setIfInBounds, if_pos rfl, if_pos (by omega)]
      · rw [← hlater i hlt, hget i hlt h₂]
        exact congrArg some (hf i h₂ _ _ fun j hj => hlater j (by omega))
  obtain ⟨hs, hget⟩ := hgen n 0 (by omega)
  rw [List.range_eq_range']
  exact ⟨hs, fun i hi => hget i (Nat.zero_le i) hi⟩

/-- Codes that satisfy the equation from the bottom up are the sets of what is below. -/
theorem contains_iff_below {n : Nat} (child : Nat → Nat → Prop) (codes : Nat → BitSet)
    (hlt : ∀ {i j}, child i j → i < j ∧ j < n)
    (hcodes : ∀ i < n, ∀ bit, (codes i).contains bit = true ↔
      bit = i ∨ ∃ j, child i j ∧ (codes j).contains bit = true) {i : Nat} (hi : i < n) (bit : Nat) :
    (codes i).contains bit = true ↔ ReflTransGen (fun j i => child i j) bit i := by
  -- from the last number down, as children have the larger numbers
  induction hk : n - i using Nat.strongRecOn generalizing i with
  | _ k ih =>
    rw [hcodes i hi]
    constructor
    · rintro (rfl | ⟨j, hij, hj⟩)
      · exact ReflTransGen.refl
      · have hjn := hlt hij
        exact ((ih (n - j) (by omega) hjn.2 rfl).1 hj).tail hij
    · intro h
      rcases ReflTransGen.cases_tail h with rfl | ⟨j, hj, hij⟩
      · exact .inl rfl
      · have hjn := hlt hij
        exact .inr ⟨j, hij, (ih (n - j) (by omega) hjn.2 rfl).2 hj⟩

/-- In a finite list everything is below something that is greatest in the list. -/
theorem exists_greatest (le : Nat → Nat → Prop) (list : List Nat) (hrefl : ∀ x, le x x)
    (htrans : ∀ {x y z}, le x y → le y z → le x z)
    (hanti : ∀ x ∈ list, ∀ y ∈ list, le x y → le y x → x = y) {x : Nat} (hx : x ∈ list) :
    ∃ m ∈ list, le x m ∧ ∀ y ∈ list, y ≠ m → ¬ le m y := by
  classical
  -- by the number of entries strictly above `x`
  induction hk : (list.toFinset.filter fun y => y ≠ x ∧ le x y).card
    using Nat.strongRecOn generalizing x with
  | _ k ih =>
    by_cases hmax : ∀ y ∈ list, y ≠ x → ¬ le x y
    · exact ⟨x, hx, hrefl x, hmax⟩
    · push Not at hmax
      obtain ⟨y, hy, hne, hxy⟩ := hmax
      have hsub : (list.toFinset.filter fun z => z ≠ y ∧ le y z) ⊂
          list.toFinset.filter fun z => z ≠ x ∧ le x z := by
        refine Finset.ssubset_iff_subset_ne.2 ⟨fun z hz => ?_, fun heq => ?_⟩
        · simp only [Finset.mem_filter, List.mem_toFinset] at hz ⊢
          refine ⟨hz.1, fun hzx => ?_, htrans hxy hz.2.2⟩
          exact hz.2.1 (hzx ▸ hanti x hx y hy hxy (hzx ▸ hz.2.2))
        · have : y ∈ list.toFinset.filter fun z => z ≠ x ∧ le x z := by simp [hy, hne, hxy]
          rw [← heq] at this
          simp at this
      obtain ⟨m, hm, hym, hgreatest⟩ := ih _ (hk ▸ Finset.card_lt_card hsub) hy rfl
      exact ⟨m, hm, htrans hxy hym, hgreatest⟩

end Codes

namespace Draft

/-! ## Leaf types -/

/-- Leaf types have one parent, and what is below a leaf type is one too. -/
structure Classified (d : Draft) : Prop where
  leaf_size : d.leaf.size = d.size
  leaf_parent : ∀ {t}, d.isLeaf t = true → ∃ p, d.parentsOf t = [p]
  leaf_of_parent : ∀ {t p}, p ∈ d.parentsOf t → d.isLeaf p = true → d.isLeaf t = true

/-- Whether a type is a leaf type, going by its children. -/
def leafTest (d : Draft) (t : Nat) : Bool :=
  t != 0 && (d.parentsOf t).length == 1 && (d.childrenOf t).all d.isLeaf

theorem markLeaves_cons (d : Draft) (t : Nat) (rest : List Nat) :
    d.markLeaves (t :: rest) = { d.markLeaves rest with
      leaf := (d.markLeaves rest).leaf.setIfInBounds t ((d.markLeaves rest).leafTest t) } := rfl

theorem markLeaves_same (d : Draft) (order : List Nat) :
    (d.markLeaves order).names = d.names ∧ (d.markLeaves order).parents = d.parents ∧
      (d.markLeaves order).children = d.children ∧
      (d.markLeaves order).leaf.size = d.leaf.size := by
  induction order with
  | nil => exact ⟨rfl, rfl, rfl, rfl⟩
  | cons t rest ih =>
    obtain ⟨h₁, h₂, h₃, h₄⟩ := ih
    exact ⟨h₁, h₂, h₃, by rw [markLeaves_cons, Array.size_setIfInBounds, h₄]⟩

/-- Parents before children, every type is marked after its children. -/
theorem isLeaf_markLeaves_of_mem {d : Draft} (h : d.Linked) (hsize : d.leaf.size = d.size)
    (hirrefl : ∀ t, t ∉ d.parentsOf t) {order : List Nat} (hlt : ∀ t ∈ order, t < d.size)
    (hnd : order.Nodup) (hfirst : order.Pairwise fun t u => u ∉ d.parentsOf t) {t : Nat}
    (ht : t ∈ order) :
    (d.markLeaves order).isLeaf t = (d.markLeaves order).leafTest t := by
  induction order with
  | nil => cases ht
  | cons u rest ih =>
    obtain ⟨hu, hrest⟩ := List.nodup_cons.1 hnd
    obtain ⟨hu', hfirst'⟩ := List.pairwise_cons.1 hfirst
    obtain ⟨-, hpar, hchild, hleaf⟩ := d.markLeaves_same rest
    have hget : ∀ x, (d.markLeaves (u :: rest)).isLeaf x =
        if x = u then (d.markLeaves rest).leafTest u else (d.markLeaves rest).isLeaf x := by
      intro x
      have hul := hlt u (by simp)
      rw [markLeaves_cons]
      simp only [isLeaf, Array.getElem?_setIfInBounds, hleaf, hsize]
      by_cases hx : u = x
      · subst hx
        simp [hul]
      · simp [hx, Ne.symm hx]
    -- the mark of `u` is no part of the test of a type that has not `u` for a child
    have hsame : ∀ x, u ∉ d.childrenOf x →
        (d.markLeaves (u :: rest)).leafTest x = (d.markLeaves rest).leafTest x := by
      intro x hx
      have hall : ((d.markLeaves rest).childrenOf x).all (d.markLeaves (u :: rest)).isLeaf =
          ((d.markLeaves rest).childrenOf x).all (d.markLeaves rest).isLeaf := by
        refine Bool.eq_iff_iff.2 ?_
        simp only [List.all_eq_true]
        refine forall₂_congr fun c hc => ?_
        rw [hget, if_neg]
        rintro rfl
        simp only [childrenOf, hchild] at hc
        exact hx hc
      exact congrArg (fun b => x != 0 && ((d.markLeaves rest).parentsOf x).length == 1 && b) hall
    rcases List.mem_cons.1 ht with rfl | ht
    · rw [hget, if_pos rfl, hsame _ fun hc => hirrefl _ (h.mem_childrenOf.1 hc)]
    · have hne : t ≠ u := fun heq => hu (heq ▸ ht)
      rw [hget, if_neg hne, hsame t fun hc => hu' t ht (h.mem_childrenOf.1 hc)]
      exact ih (fun x hx => hlt x (by simp [hx])) hrest hfirst' ht

theorem linked_markLeaves {d : Draft} (h : d.Linked) (order : List Nat) :
    (d.markLeaves order).Linked := by
  obtain ⟨h₁, h₂, h₃, -⟩ := d.markLeaves_same order
  have hp : ∀ t, (d.markLeaves order).parentsOf t = d.parentsOf t := fun t => by
    simp only [parentsOf, h₂]
  have hc : ∀ t, (d.markLeaves order).childrenOf t = d.childrenOf t := fun t => by
    simp only [childrenOf, h₃]
  have hs : (d.markLeaves order).size = d.size := by simp only [size, h₁]
  refine ⟨?_, ?_, ?_, ?_, ?_, ?_, ?_⟩
  · rw [h₂, hs, h.parents_size]
  · rw [h₃, hs, h.children_size]
  · intro t p
    rw [hp, hs]
    exact h.parent_lt
  · intro t p
    rw [hp, hc]
    exact h.mem_childrenOf
  · exact fun t => hp t ▸ h.parents_nodup t
  · exact fun t => hc t ▸ h.children_nodup t
  · intro t
    rw [hp, hs]
    exact h.parents_eq_nil

theorem classified_markLeaves {d : Draft} (h : d.Linked) (hsize : d.leaf.size = d.size)
    {order : List Nat} (ho : d.Ordered order) : (d.markLeaves order).Classified := by
  obtain ⟨h₁, h₂, h₃, h₄⟩ := d.markLeaves_same order
  have hs : (d.markLeaves order).size = d.size := by simp only [size, h₁]
  have htest : ∀ {t}, (d.markLeaves order).isLeaf t = true →
      (d.markLeaves order).leafTest t = true := by
    intro t ht
    have hlt : t < d.size := by
      by_contra hge
      rw [isLeaf, Array.getElem?_eq_none (by omega)] at ht
      cases ht
    rw [← isLeaf_markLeaves_of_mem h hsize ho.irrefl (fun t => ho.mem_iff.1) ho.nodup
      ho.parents_first (ho.mem_iff.2 hlt)]
    exact ht
  refine ⟨by rw [h₄, hs, hsize], ?_, ?_⟩
  · intro t ht
    have := htest ht
    simp only [leafTest, Bool.and_eq_true, beq_iff_eq] at this
    exact List.length_eq_one_iff.1 this.1.2
  · intro t p hp hleaf
    have := htest hleaf
    simp only [leafTest, Bool.and_eq_true, List.all_eq_true] at this
    exact this.2 t ((linked_markLeaves h order).mem_childrenOf.2 hp)

end Draft

end FeatureLogic
