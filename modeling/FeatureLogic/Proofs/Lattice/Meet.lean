import FeatureLogic.Lattice.Basic
import FeatureLogic.Proofs.Lattice.Bounds

/-!
Lattices. `Hierarchy.Le` orders all types by specificity, with `bottom` below every other type and
atoms right below the universal one. `glb` is the greatest lower bound of this order, and what a
lattice knows agrees with `glb` however the lattice has grown (`Lattice.Sound.of_grown`).
-/

open Relation

namespace FeatureLogic

/-! ## Specificity -/

namespace Hierarchy

/-- Whether the first type is at least as specific as the second. -/
def Le (h : Hierarchy) : TypeId → TypeId → Prop
  | .bottom, _ => True
  | .of _, .bottom => False
  | .of s, .of t => t = 0 ∨ h.Below s t

variable {h : Hierarchy} {s t u : TypeId}

@[simp] theorem bottom_le : h.Le .bottom t := trivial

@[simp] theorem le_refl : h.Le t t := by
  cases t with
  | bottom => trivial
  | of t => exact .inr ReflTransGen.refl

@[simp] theorem le_top : h.Le t .top := by
  cases t with
  | bottom => trivial
  | of t => exact .inl rfl

@[simp] theorem le_bottom_iff : h.Le t .bottom ↔ t = .bottom := by
  cases t <;> simp [Le]

namespace Sound

variable (hs : h.Sound)
include hs

/-- Types of the hierarchy are ordered as its links say, as every one is below the universal type. -/
theorem le_of_iff {i j : Nat} (hj : j < h.size) : h.Le (.of j) (.of i) ↔ h.Below j i :=
  ⟨fun hle => hle.elim (fun hi => hi ▸ hs.below_zero hj) id, .inr⟩

theorem le_trans (hst : h.Le s t) (htu : h.Le t u) : h.Le s u := by
  cases s with
  | bottom => trivial
  | of s =>
    cases t with
    | bottom => exact hst.elim
    | of t =>
      cases u with
      | bottom => exact htu.elim
      | of u =>
        rcases htu with rfl | htu
        · exact .inl rfl
        rcases hst with rfl | hst
        · exact .inl (hs.eq_zero_of_zero_below htu)
        · exact .inr (hst.trans htu)

theorem eq_top_of_top_le (ht : h.Le .top t) : t = .top := by
  cases t with
  | bottom => exact ht.elim
  | of t => exact congrArg TypeId.of (ht.elim id hs.eq_zero_of_zero_below)

theorem le_antisymm (hst : h.Le s t) (hts : h.Le t s) : s = t := by
  cases s with
  | bottom => exact (le_bottom_iff.1 hts).symm
  | of s =>
    cases t with
    | bottom => exact hst.elim
    | of t =>
      rcases hst with rfl | hst
      · exact hs.eq_top_of_top_le hts
      rcases hts with rfl | hts
      · exact (hs.eq_top_of_top_le (t := .of t) (Or.inr hst)).symm
      · exact congrArg TypeId.of (hs.below_antisymm hst hts)

/-- A number that is no type of the hierarchy has no other below it. -/
theorem eq_of_below_atom {s t : Nat} (ht : h.size ≤ t) (hst : h.Below s t) : s = t := by
  rcases ReflTransGen.cases_tail hst with heq | ⟨k, -, hk⟩
  · exact heq.symm
  · have := hs.parent_lt hk
    omega

theorem eq_of_atom_below {s t : Nat} (hsl : h.size ≤ s) (hst : h.Below s t) : s = t := by
  rcases ReflTransGen.cases_head hst with heq | ⟨k, hk, -⟩
  · exact heq
  · have := hs.parent_lt hk
    omega

end Sound

end Hierarchy

namespace Lattice

/-! ## Greatest lower bounds -/

section Glb

variable {l l' : Lattice} {s t u : TypeId}

theorem easyGlb_congr (h : l'.hierarchy = l.hierarchy) (s t : TypeId) :
    l'.easyGlb s t = l.easyGlb s t := by
  unfold easyGlb typeCount
  rw [h]

theorem glb_congr (h : l'.hierarchy = l.hierarchy) (s t : TypeId) : l'.glb s t = l.glb s t := by
  rw [glb, glb, easyGlb_congr h, h]

theorem easyGlb_comm (l : Lattice) (s t : TypeId) : l.easyGlb s t = l.easyGlb t s := by
  cases s <;> cases t <;> simp only [easyGlb, Nat.min_comm, Nat.max_comm]

theorem glb_comm (l : Lattice) (s t : TypeId) : l.glb s t = l.glb t s := by
  rw [glb, glb, easyGlb_comm]

/-- The greatest lower bound of types in the order of their numbers. -/
theorem glb_of_le (l : Lattice) {s t : Nat} (hst : s ≤ t) : l.glb (.of s) (.of t) =
    if s = 0 ∨ s = t then .of t else if l.typeCount ≤ t then .bottom
    else l.hierarchy.meetDistinct s t := by
  rw [glb, easyGlb, Nat.min_eq_left hst, Nat.max_eq_right hst]
  by_cases heasy : s = 0 ∨ s = t
  · simp only [heasy, if_true]
  · by_cases hatom : l.typeCount ≤ t <;> simp only [heasy, hatom, if_true, if_false]

variable (hs : l.hierarchy.Sound)
include hs

theorem glb_spec_of_le {s t : Nat} (hst : s ≤ t) :
    l.hierarchy.Le (l.glb (.of s) (.of t)) (.of s) ∧
      l.hierarchy.Le (l.glb (.of s) (.of t)) (.of t) ∧
      ∀ u, l.hierarchy.Le u (.of s) → l.hierarchy.Le u (.of t) →
        l.hierarchy.Le u (l.glb (.of s) (.of t)) := by
  rw [l.glb_of_le hst]
  by_cases heasy : s = 0 ∨ s = t
  · rw [if_pos heasy]
    refine ⟨?_, Hierarchy.le_refl, fun u _ hut => hut⟩
    rcases heasy with rfl | rfl
    · exact Hierarchy.le_top
    · exact Hierarchy.le_refl
  rw [if_neg heasy]
  push Not at heasy
  have hbelow : ∀ {u v : Nat}, v ≠ 0 → l.hierarchy.Le (.of u) (.of v) → l.hierarchy.Below u v :=
    fun hv huv => huv.resolve_left hv
  by_cases hatom : l.typeCount ≤ t
  · rw [if_pos hatom]
    refine ⟨trivial, trivial, fun u hus hut => ?_⟩
    cases u with
    | bottom => trivial
    | of u =>
      -- nothing else is below an atom, and an atom is below nothing but the universal type
      have hut := hs.eq_of_below_atom hatom (hbelow (by omega) hut)
      subst hut
      exact absurd (hs.eq_of_atom_below hatom (hbelow heasy.1 hus)).symm heasy.2
  rw [if_neg hatom]
  have hsize : t < l.hierarchy.size := Nat.lt_of_not_le hatom
  -- two types of the hierarchy, neither of them the universal type
  have hmeet := hs.isMeet_meetDistinct (by omega) hsize heasy.2
  cases hm : l.hierarchy.meetDistinct s t with
  | bottom =>
    rw [hm] at hmeet
    refine ⟨trivial, trivial, fun u hus hut => ?_⟩
    cases u with
    | bottom => trivial
    | of u => exact absurd (hbelow (by omega) hut) (hmeet u (hbelow heasy.1 hus))
  | of m =>
    rw [hm] at hmeet
    refine ⟨.inr hmeet.1, .inr hmeet.2.1, fun u hus hut => ?_⟩
    cases u with
    | bottom => trivial
    | of u => exact .inr (hmeet.2.2 u (hbelow heasy.1 hus) (hbelow (by omega) hut))

theorem glb_spec (s t : TypeId) :
    l.hierarchy.Le (l.glb s t) s ∧ l.hierarchy.Le (l.glb s t) t ∧
      ∀ u, l.hierarchy.Le u s → l.hierarchy.Le u t → l.hierarchy.Le u (l.glb s t) := by
  cases s with
  | bottom => exact ⟨trivial, trivial, fun u hus _ => hus⟩
  | of s =>
    cases t with
    | bottom => exact ⟨trivial, trivial, fun u _ hut => hut⟩
    | of t =>
      rcases Nat.le_total s t with hst | hts
      · exact glb_spec_of_le hs hst
      · obtain ⟨h₁, h₂, h₃⟩ := glb_spec_of_le hs hts
        rw [glb_comm]
        exact ⟨h₂, h₁, fun u hut hus => h₃ u hus hut⟩

theorem glb_le_left (s t : TypeId) : l.hierarchy.Le (l.glb s t) s := (glb_spec hs s t).1

theorem glb_le_right (s t : TypeId) : l.hierarchy.Le (l.glb s t) t := (glb_spec hs s t).2.1

theorem le_glb (hus : l.hierarchy.Le u s) (hut : l.hierarchy.Le u t) :
    l.hierarchy.Le u (l.glb s t) :=
  (glb_spec hs s t).2.2 u hus hut

/-- The more specific of two comparable types is their greatest lower bound. -/
theorem glb_eq_right_iff : l.glb s t = t ↔ l.hierarchy.Le t s := by
  constructor
  · intro heq
    have := glb_le_left hs s t
    rwa [heq] at this
  · exact fun hts => hs.le_antisymm (glb_le_right hs s t) (le_glb hs hts Hierarchy.le_refl)

end Glb

end Lattice

/-! ## Pairs as keys -/

theorem TypeId.isLE_compare {s t : TypeId} : (compare s t).isLE = true ↔ s ≤ t := Iff.rfl

instance : Std.TransOrd TypeId where
  eq_swap {s t} := by
    cases s <;> cases t <;> try rfl
    exact Nat.compare_swap _ _ |>.symm
  isLE_trans {s t u} hst htu := by
    rw [TypeId.isLE_compare] at hst htu ⊢
    cases u with
    | bottom => exact TypeId.le_bottom s
    | of u =>
      cases t with
      | bottom => cases htu
      | of t =>
        cases s with
        | bottom => cases hst
        | of s =>
          rw [TypeId.of_le_of] at hst htu ⊢
          exact Nat.le_trans hst htu

instance : Std.LawfulEqOrd TypeId where
  compare_self {t} := by
    cases t with
    | bottom => rfl
    | of t => exact Nat.compare_eq_eq.2 rfl
  eq_of_compare {s t} heq := by
    cases s <;> cases t <;> try first | rfl | cases heq
    exact congrArg TypeId.of (Nat.compare_eq_eq.1 heq)

instance : Std.TransCmp TypeId.compare := inferInstanceAs (Std.TransOrd TypeId)

instance : Std.LawfulEqCmp TypeId.compare := inferInstanceAs (Std.LawfulEqOrd TypeId)

instance : Std.TransCmp comparePairs :=
  inferInstanceAs (Std.TransCmp (compareLex (compareOn Prod.fst) (compareOn Prod.snd)))

instance : Std.LawfulEqCmp comparePairs where
  compare_self {p} := by
    rw [comparePairs, Ordering.then_eq_eq]
    exact ⟨Std.ReflOrd.compare_self (a := p.1), Std.ReflOrd.compare_self (a := p.2)⟩
  eq_of_compare {p q} heq := by
    rw [comparePairs, Ordering.then_eq_eq] at heq
    exact Prod.ext (Std.LawfulEqOrd.eq_of_compare (a := p.1) heq.1)
      (Std.LawfulEqOrd.eq_of_compare (a := p.2) heq.2)

end FeatureLogic
