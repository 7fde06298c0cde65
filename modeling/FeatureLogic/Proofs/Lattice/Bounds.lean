import FeatureLogic.Proofs.Lattice.Numbering

/-!
Greatest lower bounds of a sound hierarchy. A leaf type has one way up, and it ends at a coded
type; so the four cases of `meetDistinct` all give the greatest type below two types
(`Sound.isMeet_meetDistinct`).
-/

open Relation

namespace FeatureLogic

namespace Hierarchy

/-- The greatest type of the hierarchy below two types; `bottom` when there is none below both. -/
def IsMeet (h : Hierarchy) (s t : Nat) : TypeId → Prop
  | .bottom => ∀ u, h.Below u s → ¬ h.Below u t
  | .of m => h.Below m s ∧ h.Below m t ∧ ∀ u, h.Below u s → h.Below u t → h.Below u m

theorem IsMeet.symm {h : Hierarchy} {s t : Nat} {m : TypeId} (hm : h.IsMeet s t m) :
    h.IsMeet t s m := by
  cases m with
  | bottom => exact fun u hut hus => hm u hus hut
  | of m => exact ⟨hm.2.1, hm.1, fun u hut hus => hm.2.2 u hus hut⟩

/-- Of two types one of which is below the other, it is the meet. -/
theorem isMeet_of_below {h : Hierarchy} {s t : Nat} (hst : h.Below s t) : h.IsMeet s t (.of s) :=
  ⟨ReflTransGen.refl, hst, fun _ hus _ => hus⟩

theorem isLeaf_iff {h : Hierarchy} {t : Nat} :
    h.isLeaf t = true ↔ h.firstLeaf ≤ t ∧ t < h.size := by
  simp [isLeaf]

namespace Sound

variable {h : Hierarchy} (hs : h.Sound)
include hs

/-! ### The order -/

theorem le_of_below {t u : Nat} (htu : h.Below t u) : u ≤ t := by
  induction htu with
  | refl => exact Nat.le_refl _
  | tail _ hp ih =>
    have := (hs.parent_lt hp).1
    omega

theorem below_antisymm {t u : Nat} (htu : h.Below t u) (hut : h.Below u t) : t = u :=
  Nat.le_antisymm (hs.le_of_below hut) (hs.le_of_below htu)

theorem lt_size_of_below {t u : Nat} (htu : h.Below t u) (hu : u < h.size) : t < h.size := by
  rcases ReflTransGen.cases_head htu with rfl | ⟨p, hp, -⟩
  · exact hu
  · exact (hs.parent_lt hp).2

/-- Every type is below the universal type. -/
theorem below_zero {t : Nat} (ht : t < h.size) : h.Below t 0 := by
  induction t using Nat.strongRecOn with
  | _ t ih =>
    by_cases h0 : t = 0
    · subst h0
      exact ReflTransGen.refl
    · obtain ⟨p, hp⟩ := List.exists_mem_of_ne_nil _ (mt (hs.parents_eq_nil ht).1 h0)
      have hlt := (hs.parent_lt hp).1
      exact ReflTransGen.head hp (ih p hlt (by omega))

theorem eq_zero_of_zero_below {u : Nat} (hu : h.Below 0 u) : u = 0 :=
  Nat.le_zero.1 (hs.le_of_below hu)

/-! ### The way up from a type -/

/-- What the way up from a type leads through: the leaf types above it, and then the coded type
that is below every coded type above it. -/
theorem chainAbove_spec (fuel : Nat) {t : Nat} (hfuel : t < fuel) (ht : t < h.size) :
    (h.chainAbove fuel t).getLastD t < h.firstLeaf ∧
      h.Below t ((h.chainAbove fuel t).getLastD t) ∧
      (∀ u, h.Below t u → u < h.firstLeaf → h.Below ((h.chainAbove fuel t).getLastD t) u) ∧
      ∀ u, h.isLeaf u = true → (u ∈ h.chainAbove fuel t ↔ h.Below t u ∧ u ≠ t) := by
  induction fuel generalizing t with
  | zero => omega
  | succ fuel ih =>
    unfold chainAbove
    by_cases hleaf : h.isLeaf t = true
    · obtain ⟨p, hp⟩ := hs.leaf_parent hleaf
      have hpar : h.leafParent? t = some p := by simp [leafParent?, hleaf, hp]
      have hmem : p ∈ h.parentsOf t := by simp [hp]
      have hlt := (hs.parent_lt hmem).1
      -- the way up from a leaf leads through its only parent
      obtain ⟨hcoded, hbelow, hleast, hchain⟩ := ih (t := p) (by omega) (by omega)
      simp only [hpar, List.getLastD_cons]
      have hup : ∀ u, h.Below t u → u ≠ t → h.Below p u := by
        intro u htu hne
        rcases ReflTransGen.cases_head htu with rfl | ⟨q, hq, hqu⟩
        · exact absurd rfl hne
        · rw [hp, List.mem_singleton] at hq
          exact hq ▸ hqu
      refine ⟨hcoded, ReflTransGen.head hmem hbelow, fun u htu hu => ?_, fun u hu => ?_⟩
      · refine hleast u (hup u htu fun heq => ?_) hu
        have := (isLeaf_iff.1 hleaf).1
        omega
      · rw [List.mem_cons, hchain u hu]
        constructor
        · rintro (rfl | ⟨hpu, hne⟩)
          · exact ⟨ReflTransGen.single hmem, by omega⟩
          · have := hs.le_of_below hpu
            exact ⟨ReflTransGen.head hmem hpu, by omega⟩
        · rintro ⟨htu, hne⟩
          by_cases hup' : u = p
          · exact .inl hup'
          · exact .inr ⟨hup u htu hne, hup'⟩
    · have hnone : h.leafParent? t = none := by simp [leafParent?, hleaf]
      have hcoded : t < h.firstLeaf := by
        by_contra hge
        exact hleaf (isLeaf_iff.2 ⟨by omega, ht⟩)
      simp only [hnone, List.getLastD_nil]
      refine ⟨hcoded, ReflTransGen.refl, fun u htu _ => htu, fun u hu => ?_⟩
      have := (isLeaf_iff.1 hu).1
      constructor
      · intro hmem
        cases hmem
      · rintro ⟨htu, -⟩
        have := hs.le_of_below htu
        omega

theorem codedAbove_lt {t : Nat} (ht : t < h.size) : h.codedAbove t < h.firstLeaf :=
  (hs.chainAbove_spec h.size ht ht).1

theorem below_codedAbove {t : Nat} (ht : t < h.size) : h.Below t (h.codedAbove t) :=
  (hs.chainAbove_spec h.size ht ht).2.1

theorem codedAbove_below {t u : Nat} (htu : h.Below t u) (hu : u < h.firstLeaf) :
    h.Below (h.codedAbove t) u := by
  have ht := hs.lt_size_of_below htu (Nat.lt_of_lt_of_le hu hs.firstLeaf_le)
  exact (hs.chainAbove_spec h.size ht ht).2.2.1 u htu hu

theorem mem_chain {t u : Nat} (ht : t < h.size) (hu : h.isLeaf u = true) :
    u ∈ h.chain t ↔ h.Below t u ∧ u ≠ t :=
  (hs.chainAbove_spec h.size ht ht).2.2.2 u hu

/-- What is above a leaf type and below another type is below it or above it. -/
theorem below_or_below {u s t : Nat} (hus : h.Below u s) (hut : h.Below u t)
    (hls : h.isLeaf s = true) : h.Below s t ∨ h.Below t s := by
  induction hus using ReflTransGen.head_induction_on with
  | refl => exact .inl hut
  | @head u p hp hps ih =>
    rcases ReflTransGen.cases_head hut with rfl | ⟨q, hq, hqt⟩
    · exact .inr (ReflTransGen.head hp hps)
    · -- above `u` is a leaf type, so `u` is one and has one parent only
      have hsu := hs.le_of_below hps
      have hup := hs.parent_lt hp
      have hlu : h.isLeaf u = true := isLeaf_iff.2 ⟨by have := (isLeaf_iff.1 hls).1; omega, hup.2⟩
      obtain ⟨r, hr⟩ := hs.leaf_parent hlu
      rw [hr, List.mem_singleton] at hp hq
      subst hp hq
      exact ih hqt

/-! ### The four cases -/

theorem isSubset_codeOf_iff {s t : Nat} (hsl : s < h.firstLeaf) (htl : t < h.firstLeaf) :
    (h.codeOf s).isSubset (h.codeOf t) = true ↔ h.Below s t := by
  rw [BitSet.isSubset_iff]
  constructor
  · intro hsub
    exact ((hs.contains_iff htl s).1 (hsub s ((hs.contains_iff hsl s).2 ⟨hsl, ReflTransGen.refl⟩))).2
  · intro hst x hx
    obtain ⟨hxl, hxs⟩ := (hs.contains_iff hsl x).1 hx
    exact (hs.contains_iff htl x).2 ⟨hxl, hxs.trans hst⟩

theorem contains_inter_iff {s t : Nat} (hsl : s < h.firstLeaf) (htl : t < h.firstLeaf) (x : Nat) :
    ((h.codeOf s).inter (h.codeOf t)).contains x = true ↔
      x < h.firstLeaf ∧ h.Below x s ∧ h.Below x t := by
  rw [BitSet.contains_inter, Bool.and_eq_true, hs.contains_iff hsl, hs.contains_iff htl]
  tauto

/-- A type below two coded types is below a coded type that is below both. -/
theorem isMeet_meetCoded {s t : Nat} (hsl : s < h.firstLeaf) (htl : t < h.firstLeaf) :
    h.IsMeet s t (h.meetCoded s t) := by
  have hcoded : ∀ u, h.Below u s → h.Below u t →
      h.Below u (h.codedAbove u) ∧ h.codedAbove u < h.firstLeaf ∧
        h.Below (h.codedAbove u) s ∧ h.Below (h.codedAbove u) t := by
    intro u hus hut
    have hu := hs.lt_size_of_below hus (Nat.lt_of_lt_of_le hsl hs.firstLeaf_le)
    exact ⟨hs.below_codedAbove hu, hs.codedAbove_lt hu, hs.codedAbove_below hus hsl,
      hs.codedAbove_below hut htl⟩
  cases hzero : ((h.codeOf s).inter (h.codeOf t)).isZero with
  | true =>
    have hbottom : h.meetCoded s t = .bottom := by simp [meetCoded, hzero]
    rw [hbottom]
    intro u hus hut
    obtain ⟨-, hlt, hbs, hbt⟩ := hcoded u hus hut
    have : ((h.codeOf s).inter (h.codeOf t)).isZero = false :=
      BitSet.isZero_eq_false_iff.2
        ⟨h.codedAbove u, (hs.contains_inter_iff hsl htl _).2 ⟨hlt, hbs, hbt⟩⟩
    rw [hzero] at this
    cases this
  | false =>
    cases hfind : h.typeOfCode? ((h.codeOf s).inter (h.codeOf t)) with
    | none =>
      -- the closure left no common part without a type
      obtain ⟨x, hx⟩ := BitSet.isZero_eq_false_iff.1 hzero
      obtain ⟨m, hm, hms, hmt, hgreatest⟩ :=
        hs.meet hsl htl ⟨x, (hs.contains_inter_iff hsl htl x).1 hx⟩
      have hnone := Array.findIdx?_eq_none_iff.1 hfind h.codes[m] (Array.getElem_mem hm)
      have hsame : ((h.codeOf s).inter (h.codeOf t)).sameBits (h.codeOf m) = true := by
        refine BitSet.sameBits_iff.2 fun x => ?_
        rw [hs.contains_inter_iff hsl htl, hs.contains_iff hm]
        constructor
        · exact fun ⟨hxl, hxs, hxt⟩ => ⟨hxl, hgreatest x hxl hxs hxt⟩
        · exact fun ⟨hxl, hxm⟩ => ⟨hxl, hxm.trans hms, hxm.trans hmt⟩
      have hcode : h.codeOf m = h.codes[m] := by
        rw [codeOf, Array.getElem?_eq_getElem hm, Option.getD_some]
      rw [hcode, hnone] at hsame
      cases hsame
    | some m =>
      have hfound : h.meetCoded s t = .of m := by simp [meetCoded, hzero, hfind]
      rw [hfound]
      -- a type with that code is below both, and above all that is
      obtain ⟨hm, hsame, -⟩ := Array.findIdx?_eq_some_iff_getElem.1 hfind
      have hcontains : ∀ x, x < h.firstLeaf ∧ h.Below x m ↔
          x < h.firstLeaf ∧ h.Below x s ∧ h.Below x t := by
        intro x
        rw [← hs.contains_inter_iff hsl htl, ← hs.contains_iff hm, BitSet.sameBits_iff.1 hsame x,
          codeOf, Array.getElem?_eq_getElem hm, Option.getD_some]
      obtain ⟨-, hms, hmt⟩ := (hcontains m).1 ⟨hm, ReflTransGen.refl⟩
      refine ⟨hms, hmt, fun u hus hut => ?_⟩
      obtain ⟨hup, hlt, hbs, hbt⟩ := hcoded u hus hut
      exact hup.trans ((hcontains _).2 ⟨hlt, hbs, hbt⟩).2

theorem isMeet_meetLeafCoded {s t : Nat} (hsl : h.isLeaf s = true) (htl : t < h.firstLeaf) :
    h.IsMeet s t (h.meetLeafCoded s t) := by
  have hsize := (isLeaf_iff.1 hsl).2
  have hlt := hs.codedAbove_lt hsize
  have hiff : (h.codedAbove s == t || (h.codeOf (h.codedAbove s)).isSubset (h.codeOf t)) = true ↔
      h.Below s t := by
    rw [Bool.or_eq_true, beq_iff_eq, hs.isSubset_codeOf_iff hlt htl]
    constructor
    · rintro (heq | hbelow)
      · exact heq ▸ hs.below_codedAbove hsize
      · exact (hs.below_codedAbove hsize).trans hbelow
    · exact fun hst => .inr (hs.codedAbove_below hst htl)
  unfold meetLeafCoded
  by_cases hst : h.Below s t
  · rw [if_pos (hiff.2 hst)]
    exact isMeet_of_below hst
  · rw [if_neg (mt hiff.1 hst)]
    intro u hus hut
    rcases hs.below_or_below hus hut hsl with hst' | hts
    · exact hst hst'
    · have := hs.le_of_below hts
      have := (isLeaf_iff.1 hsl).1
      omega

theorem isMeet_meetDistinct {s t : Nat} (hsl : s < h.size) (htl : t < h.size) (hne : s ≠ t) :
    h.IsMeet s t (h.meetDistinct s t) := by
  have hcoded : ∀ {u}, u < h.size → h.isLeaf u = false → u < h.firstLeaf := by
    intro u hu hleaf
    by_contra hge
    rw [isLeaf_iff.2 ⟨by omega, hu⟩] at hleaf
    cases hleaf
  unfold meetDistinct
  cases hs' : h.isLeaf s <;> cases ht' : h.isLeaf t <;> simp only
  case false.false => exact hs.isMeet_meetCoded (hcoded hsl hs') (hcoded htl ht')
  case false.true => exact (hs.isMeet_meetLeafCoded ht' (hcoded hsl hs')).symm
  case true.false => exact hs.isMeet_meetLeafCoded hs' (hcoded htl ht')
  case true.true =>
    by_cases hst : t ∈ h.chain s
    · rw [if_pos (by simpa using hst)]
      exact isMeet_of_below ((hs.mem_chain hsl ht').1 hst).1
    rw [if_neg (by simpa using hst)]
    by_cases hts : s ∈ h.chain t
    · rw [if_pos (by simpa using hts)]
      exact (isMeet_of_below ((hs.mem_chain htl hs').1 hts).1).symm
    rw [if_neg (by simpa using hts)]
    intro u hus hut
    rcases hs.below_or_below hus hut hs' with hbelow | hbelow
    · exact hst ((hs.mem_chain hsl ht').2 ⟨hbelow, hne.symm⟩)
    · exact hts ((hs.mem_chain htl hs').2 ⟨hbelow, hne⟩)

end Sound

end Hierarchy

end FeatureLogic
