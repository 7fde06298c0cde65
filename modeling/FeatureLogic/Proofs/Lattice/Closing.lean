import FeatureLogic.Proofs.Lattice.Codes

/-!
The state of a closure. The invariant `Closing.Sound` says that the code of every coded type is the
set of the coded types below it and that a code is known by its part of the first bits; to insert a
type for a missing meet keeps it (`Closing.Sound.insertMeet`).
-/

open Relation

namespace FeatureLogic

/-! ## New names -/

namespace Closing

theorem freshName_not_mem (names : Array String) (used : List String) (fuel : Nat) (name : String)
    (hnd : used.Nodup) (hused : ∀ u ∈ used, u ∈ names.toList ∧ u.length < name.length)
    (hfuel : names.size < fuel + used.length) : freshName names fuel name ∉ names := by
  -- every name that is taken is one of `used`, and there are not more of them than names
  induction fuel generalizing used name with
  | zero =>
    have hle := (List.Nodup.subperm hnd fun u hu => (hused u hu).1).length_le
    simp only [Array.length_toList] at hle
    omega
  | succ fuel ih =>
    unfold freshName
    by_cases hmem : names.contains name = true
    · rw [if_pos hmem]
      refine ih (name :: used) (name.push '_') ?_ ?_ (by simp; omega)
      · refine List.nodup_cons.2 ⟨fun hu => ?_, hnd⟩
        exact Nat.lt_irrefl _ (hused name hu).2
      · intro u hu
        rw [String.length_push]
        rcases List.mem_cons.1 hu with rfl | hu
        · exact ⟨by simpa using hmem, Nat.lt_succ_self _⟩
        · exact ⟨(hused u hu).1, Nat.lt_succ_of_lt (hused u hu).2⟩
    · rw [if_neg hmem]
      simpa using hmem

/-! ## The invariant -/

/-- What holds between two insertions. The first `n` bits are those of the closure's start: a code
is known by its part of them. -/
structure Sound (n : Nat) (c : Closing) : Prop where
  linked : c.draft.Linked
  classified : c.draft.Classified
  names_nodup : c.draft.names.toList.Nodup
  bits_size : c.typeOfBit.size = c.codes.size
  bits_nodup : c.typeOfBit.toList.Nodup
  mem_bits : ∀ {t}, t ∈ c.typeOfBit ↔ t < c.draft.size ∧ c.draft.isLeaf t = false
  contains_iff : ∀ {a}, a < c.codes.size → ∀ b, (c.codeOf a).contains b = true ↔
    b < c.codes.size ∧ c.draft.Below (c.typeAt b) (c.typeAt a)
  antisymm : ∀ {t u}, t < c.draft.size → c.draft.Below t u → c.draft.Below u t → t = u
  base_le : n ≤ c.codes.size
  contains_of_base : ∀ {a b}, a < c.codes.size → b < c.codes.size →
    (∀ x < n, (c.codeOf a).contains x = true → (c.codeOf b).contains x = true) →
    (c.codeOf b).contains a = true

namespace Sound

variable {n : Nat} {c : Closing} (h : c.Sound n)
include h

theorem typeAt_mem {a : Nat} (ha : a < c.codes.size) : c.typeAt a ∈ c.typeOfBit := by
  have hlt : a < c.typeOfBit.size := h.bits_size ▸ ha
  rw [typeAt, Array.getElem?_eq_getElem hlt]
  exact Array.getElem_mem hlt

theorem typeAt_lt {a : Nat} (ha : a < c.codes.size) : c.typeAt a < c.draft.size :=
  (h.mem_bits.1 (h.typeAt_mem ha)).1

/-- Every type that is no leaf has a bit. -/
theorem exists_typeAt {t : Nat} (ht : t < c.draft.size) (hleaf : c.draft.isLeaf t = false) :
    ∃ a < c.codes.size, c.typeAt a = t := by
  obtain ⟨a, ha, heq⟩ := Array.getElem_of_mem (h.mem_bits.2 ⟨ht, hleaf⟩)
  refine ⟨a, h.bits_size ▸ ha, ?_⟩
  rw [typeAt, Array.getElem?_eq_getElem ha, heq]
  rfl

theorem typeAt_inj {a b : Nat} (ha : a < c.codes.size) (hb : b < c.codes.size)
    (hab : c.typeAt a = c.typeAt b) : a = b := by
  have hla : a < c.typeOfBit.size := h.bits_size ▸ ha
  have hlb : b < c.typeOfBit.size := h.bits_size ▸ hb
  rw [typeAt, typeAt, Array.getElem?_eq_getElem hla, Array.getElem?_eq_getElem hlb] at hab
  refine (@List.Nodup.getElem_inj_iff _ _ h.bits_nodup _ hla _ hlb).1 ?_
  rw [Array.getElem_toList, Array.getElem_toList]
  exact hab

theorem lt_of_contains {a b : Nat} (ha : a < c.codes.size)
    (hb : (c.codeOf a).contains b = true) : b < c.codes.size :=
  ((h.contains_iff ha b).1 hb).1

theorem contains_self {a : Nat} (ha : a < c.codes.size) : (c.codeOf a).contains a = true :=
  (h.contains_iff ha a).2 ⟨ha, ReflTransGen.refl⟩

theorem contains_trans {a b x : Nat} (hb : b < c.codes.size)
    (hab : (c.codeOf b).contains a = true) (hx : (c.codeOf a).contains x = true) :
    (c.codeOf b).contains x = true := by
  have ha := h.lt_of_contains hb hab
  obtain ⟨hxl, hxa⟩ := (h.contains_iff ha x).1 hx
  exact (h.contains_iff hb x).2 ⟨hxl, hxa.trans ((h.contains_iff hb a).1 hab).2⟩

theorem contains_antisymm {a b : Nat} (ha : a < c.codes.size) (hb : b < c.codes.size)
    (hab : (c.codeOf b).contains a = true) (hba : (c.codeOf a).contains b = true) : a = b :=
  h.typeAt_inj ha hb (h.antisymm (h.typeAt_lt ha) ((h.contains_iff hb a).1 hab).2
    ((h.contains_iff ha b).1 hba).2)

/-- One code contains another when it contains its type. -/
theorem isSubset_iff_contains {a b : Nat} (ha : a < c.codes.size) (hb : b < c.codes.size) :
    (c.codeOf a).isSubset (c.codeOf b) = true ↔ (c.codeOf b).contains a = true := by
  rw [BitSet.isSubset_iff]
  exact ⟨fun hsub => hsub a (h.contains_self ha), fun hab x hx => h.contains_trans hb hab hx⟩

end Sound

/-! ## A missing meet -/

/-- A set of bits that should be the code of a type and is that of none. -/
structure Missing (n : Nat) (c : Closing) (meet : BitSet) : Prop where
  lt_size : ∀ {x}, meet.contains x = true → x < c.codes.size
  down : ∀ {x y}, meet.contains y = true → (c.codeOf y).contains x = true →
    meet.contains x = true
  nonempty : ∃ x, meet.contains x = true
  new : ∀ u < c.codes.size, ¬ ∀ x, meet.contains x = true ↔ (c.codeOf u).contains x = true
  upper : ∃ u < c.codes.size, meet.isSubset (c.codeOf u) = true
  common : ∃ u v, u < c.codes.size ∧ v < c.codes.size ∧ ∀ x, meet.contains x = true ↔
    (c.codeOf u).contains x = true ∧ (c.codeOf v).contains x = true
  subset_of_base : ∀ u < c.codes.size,
    (∀ x < n, meet.contains x = true → (c.codeOf u).contains x = true) →
    meet.isSubset (c.codeOf u) = true
  contains_of_base : ∀ u < c.codes.size,
    (∀ x < n, (c.codeOf u).contains x = true → meet.contains x = true) →
    meet.contains u = true

theorem missing_of_missingMeet {n : Nat} {c : Closing} (h : c.Sound n) {a b : Nat} {meet : BitSet}
    (ha : a < c.codes.size) (hb : b < c.codes.size) (hm : c.missingMeet a b = some meet) :
    Missing n c meet := by
  simp only [missingMeet] at hm
  split at hm
  · cases hm
  split at hm
  · cases hm
  rename_i hmeet
  cases hm
  simp only [Bool.or_eq_true, not_or, Bool.not_eq_true, BitSet.isZero_eq_false_iff] at hmeet
  obtain ⟨hne, hnew⟩ := hmeet
  have hmem : ∀ x, ((c.codeOf a).inter (c.codeOf b)).contains x = true ↔
      (c.codeOf a).contains x = true ∧ (c.codeOf b).contains x = true := by
    intro x
    rw [BitSet.contains_inter, Bool.and_eq_true]
  refine ⟨fun {x} hx => h.lt_of_contains ha ((hmem x).1 hx).1, fun {x y} hy hxy => ?_, hne,
    fun u hu hsame => ?_, ⟨a, ha, BitSet.isSubset_iff.2 fun x hx => ((hmem x).1 hx).1⟩,
    ⟨a, b, ha, hb, hmem⟩, fun u hu hbase => ?_, fun u hu hbase => ?_⟩
  · -- what holds of two codes holds of what they have in common
    obtain ⟨hya, hyb⟩ := (hmem y).1 hy
    exact (hmem x).2 ⟨h.contains_trans ha hya hxy, h.contains_trans hb hyb hxy⟩
  · rw [Array.any_eq_false] at hnew
    have := hnew u hu
    rw [BitSet.sameBits_iff] at this
    refine this ?_
    simpa only [codeOf, Array.getElem?_eq_getElem hu, Option.getD_some] using hsame
  · refine BitSet.isSubset_iff.2 fun x hx => ?_
    obtain ⟨hxa, hxb⟩ := (hmem x).1 hx
    have hxl := h.lt_of_contains ha hxa
    refine h.contains_of_base hxl hu fun y hy hyx => hbase y hy ((hmem y).2 ⟨?_, ?_⟩)
    · exact h.contains_trans ha hxa hyx
    · exact h.contains_trans hb hxb hyx
  · refine (hmem u).2 ⟨h.contains_of_base hu ha fun x hx hxu => ?_,
      h.contains_of_base hu hb fun x hx hxu => ?_⟩
    · exact ((hmem x).1 (hbase x hx hxu)).1
    · exact ((hmem x).1 (hbase x hx hxu)).2

section Insertion

variable {n : Nat} {c : Closing} {meet : BitSet} (h : c.Sound n) (hm : Missing n c meet)
include h

theorem mem_leastAbove {u : Nat} : u ∈ c.leastAbove meet ↔
    (u < c.codes.size ∧ meet.isSubset (c.codeOf u) = true) ∧
      ∀ v < c.codes.size, meet.isSubset (c.codeOf v) = true → v ≠ u →
        ¬ (c.codeOf u).contains v = true := by
  simp only [leastAbove, List.mem_filter, List.mem_range, Bool.not_eq_true', List.any_eq_false,
    Bool.and_eq_true, bne_iff_ne, not_and, and_imp]
  refine and_congr_right fun hu => forall₂_congr fun v hv => forall₂_congr fun _ _ => ?_
  rw [h.isSubset_iff_contains hv hu.1]

theorem exists_leastAbove {u : Nat} (hu : u < c.codes.size)
    (hsub : meet.isSubset (c.codeOf u) = true) :
    ∃ v ∈ c.leastAbove meet, (c.codeOf u).contains v = true := by
  obtain ⟨v, hv, huv, hleast⟩ := Codes.exists_greatest
    (fun x y => x = y ∨ x < c.codes.size ∧ (c.codeOf x).contains y = true)
    ((List.range c.codes.size).filter fun u => meet.isSubset (c.codeOf u))
    (fun x => .inl rfl)
    (by
      rintro x y z (rfl | ⟨hx, hxy⟩) hyz
      · exact hyz
      · rcases hyz with rfl | ⟨hy, hyz⟩
        · exact .inr ⟨hx, hxy⟩
        · exact .inr ⟨hx, h.contains_trans hx hxy hyz⟩)
    (by
      rintro x - y - (rfl | ⟨hx, hxy⟩) hyx
      · rfl
      · rcases hyx with rfl | ⟨hy, hyx⟩
        · rfl
        · exact h.contains_antisymm hx hy hyx hxy)
    (by simpa using ⟨hu, hsub⟩ : u ∈ _)
  have hv' : v < c.codes.size ∧ meet.isSubset (c.codeOf v) = true := by simpa using hv
  refine ⟨v, (mem_leastAbove h).2 ⟨hv', fun w hw hwm hne hwv => ?_⟩, ?_⟩
  · exact hleast w (by simpa using ⟨hw, hwm⟩) hne (.inr ⟨hv'.1, hwv⟩)
  · rcases huv with rfl | ⟨-, huv⟩
    · exact h.contains_self hu
    · exact huv

include hm

theorem mem_greatestBelow {u : Nat} : u ∈ c.greatestBelow meet ↔
    meet.contains u = true ∧ ∀ v, meet.contains v = true → v ≠ u →
      ¬ (c.codeOf v).contains u = true := by
  simp only [greatestBelow, List.mem_filter, BitSet.mem_toList, Bool.not_eq_true',
    List.any_eq_false, Bool.and_eq_true, bne_iff_ne, not_and]
  refine and_congr_right fun hu => forall₂_congr fun v hv => forall_congr' fun _ => ?_
  rw [h.isSubset_iff_contains (hm.lt_size hu) (hm.lt_size hv)]

theorem exists_greatestBelow {u : Nat} (hu : meet.contains u = true) :
    ∃ v ∈ c.greatestBelow meet, (c.codeOf v).contains u = true := by
  obtain ⟨v, hv, huv, hgreatest⟩ := Codes.exists_greatest
    (fun x y => x = y ∨ y < c.codes.size ∧ (c.codeOf y).contains x = true) meet.toList
    (fun x => .inl rfl)
    (by
      rintro x y z hxy (rfl | ⟨hz, hyz⟩)
      · exact hxy
      · rcases hxy with rfl | ⟨hy, hxy⟩
        · exact .inr ⟨hz, hyz⟩
        · exact .inr ⟨hz, h.contains_trans hz hyz hxy⟩)
    (by
      rintro x - y - (rfl | ⟨hy, hxy⟩) hyx
      · rfl
      · rcases hyx with rfl | ⟨hx, hyx⟩
        · rfl
        · exact h.contains_antisymm hx hy hxy hyx)
    (BitSet.mem_toList.2 hu)
  have hv' := BitSet.mem_toList.1 hv
  refine ⟨v, (mem_greatestBelow h hm).2 ⟨hv', fun w hw hne hwv => ?_⟩, ?_⟩
  · exact hgreatest w (BitSet.mem_toList.2 hw) hne (.inr ⟨hm.lt_size hw, hwv⟩)
  · rcases huv with rfl | ⟨-, huv⟩
    · exact h.contains_self (hm.lt_size hu)
    · exact huv

theorem insertable : c.draft.Insertable ((c.leastAbove meet).map c.typeAt)
    ((c.greatestBelow meet).map c.typeAt) := by
  have habove : ∀ u ∈ c.leastAbove meet, u < c.codes.size := fun u hu =>
    ((mem_leastAbove h).1 hu).1.1
  have hbelow : ∀ u ∈ c.greatestBelow meet, u < c.codes.size := fun u hu =>
    hm.lt_size ((mem_greatestBelow h hm).1 hu).1
  have hcontains : ∀ z ∈ c.greatestBelow meet, ∀ u ∈ c.leastAbove meet,
      (c.codeOf u).contains z = true := fun z hz u hu =>
    BitSet.isSubset_iff.1 ((mem_leastAbove h).1 hu).1.2 z ((mem_greatestBelow h hm).1 hz).1
  -- a type both above and below the meet would have the meet for its code
  have hapart : ∀ u ∈ c.leastAbove meet, meet.contains u = true → False := by
    intro u hu hmu
    refine hm.new u (habove u hu) fun x => ⟨?_, hm.down hmu⟩
    exact BitSet.isSubset_iff.1 ((mem_leastAbove h).1 hu).1.2 x
  -- no repetition, types of the draft, a parent at least, and every parent above every child
  refine ⟨?_, ?_, ?_, ?_, ?_, ?_, ?_, ?_⟩
  · refine (List.Nodup.filter _ (List.nodup_range.filter _)).map_on ?_
    exact fun u hu v hv => h.typeAt_inj (habove u hu) (habove v hv)
  · refine (List.Nodup.filter _ ((BitSet.pairwise_toList meet).imp Nat.ne_of_lt)).map_on ?_
    exact fun u hu v hv => h.typeAt_inj (hbelow u hu) (hbelow v hv)
  · intro p hp
    obtain ⟨u, hu, rfl⟩ := List.mem_map.1 hp
    exact h.typeAt_lt (habove u hu)
  · intro t ht
    obtain ⟨u, hu, rfl⟩ := List.mem_map.1 ht
    exact h.typeAt_lt (hbelow u hu)
  · obtain ⟨u, hu, hsub⟩ := hm.upper
    obtain ⟨v, hv, -⟩ := exists_leastAbove h hu hsub
    exact List.ne_nil_of_mem (List.mem_map_of_mem hv)
  · -- what is above the universal type is the universal type
    intro hzero
    obtain ⟨z, hz, hz0⟩ := List.mem_map.1 hzero
    obtain ⟨u, hu, hsub⟩ := hm.upper
    obtain ⟨v, hv, -⟩ := exists_leastAbove h hu hsub
    have hzv := ((h.contains_iff (habove v hv) z).1 (hcontains z hz v hv)).2
    rw [hz0] at hzv
    have hv0 := Draft.eq_zero_of_below h.linked hzv
    have : v = z := h.typeAt_inj (habove v hv) (hbelow z hz) (hv0.trans hz0.symm)
    exact hapart v hv (this ▸ ((mem_greatestBelow h hm).1 hz).1)
  · intro t ht p hp
    obtain ⟨z, hz, rfl⟩ := List.mem_map.1 ht
    obtain ⟨u, hu, rfl⟩ := List.mem_map.1 hp
    exact ((h.contains_iff (habove u hu) z).1 (hcontains z hz u hu)).2
  · intro t ht hp
    obtain ⟨z, hz, rfl⟩ := List.mem_map.1 ht
    obtain ⟨u, hu, huz⟩ := List.mem_map.1 hp
    have : u = z := h.typeAt_inj (habove u hu) (hbelow z hz) huz
    exact hapart u hu (this ▸ ((mem_greatestBelow h hm).1 hz).1)

end Insertion

/-! ## An insertion -/

theorem size_insertMeet (c : Closing) (meet : BitSet) :
    (c.insertMeet meet).codes.size = c.codes.size + 1 := by
  simp [insertMeet]

theorem contains_insertMeet (c : Closing) (meet : BitSet) {a : Nat} (ha : a < c.codes.size + 1)
    (x : Nat) : ((c.insertMeet meet).codeOf a).contains x = true ↔
      if a = c.codes.size then meet.contains x = true ∨ x = c.codes.size
      else (c.codeOf a).contains x = true ∨
        (meet.isSubset (c.codeOf a) = true ∧ x = c.codes.size) := by
  simp only [codeOf, insertMeet, Array.getElem?_push, Array.size_map, Array.getElem?_map]
  by_cases hlast : a = c.codes.size
  · simp only [hlast, if_true, Option.getD_some, BitSet.contains_insert, BitSet.contains_grow,
      Bool.or_eq_true, beq_iff_eq]
    exact or_congr_right eq_comm
  · have hlt : a < c.codes.size := by omega
    rw [if_neg hlast, if_neg hlast, Array.getElem?_eq_getElem hlt]
    simp only [Option.map_some, Option.getD_some]
    split
    · rename_i hsub
      simp only [BitSet.contains_insert, BitSet.contains_grow, Bool.or_eq_true, beq_iff_eq, hsub,
        true_and]
      exact or_congr_right eq_comm
    · rename_i hsub
      simp [hsub]

theorem typeAt_insertMeet (c : Closing) (meet : BitSet) (hsize : c.typeOfBit.size = c.codes.size)
    (a : Nat) : (c.insertMeet meet).typeAt a =
      if a = c.codes.size then c.draft.size else c.typeAt a := by
  simp only [typeAt, insertMeet, Array.getElem?_push, hsize]
  split <;> rfl

theorem isLeaf_insertMeet (c : Closing) (meet : BitSet) (h : c.draft.Classified) (t : Nat) :
    (c.insertMeet meet).draft.isLeaf t = if t = c.draft.size then false else c.draft.isLeaf t :=
  Draft.isLeaf_insertBetween h.leaf_size t

theorem names_nodup_insertMeet {c : Closing} (h : c.draft.names.toList.Nodup) (meet : BitSet) :
    (c.insertMeet meet).draft.names.toList.Nodup := by
  have hnew := freshName_not_mem c.draft.names [] (c.draft.size + 1)
    s!"glbtype{c.inserted + 1}" List.nodup_nil (by simp) (by simp [Draft.size])
  show (c.draft.names.push _).toList.Nodup
  rw [Array.toList_push, List.nodup_append]
  refine ⟨h, List.nodup_singleton _, fun s hs u hu hsu => hnew ?_⟩
  rw [← List.mem_singleton.1 hu, ← hsu]
  exact Array.mem_toList_iff.1 hs

section Kept

variable {n : Nat} {c : Closing} (h : c.Sound n) {meet : BitSet}
include h

theorem isLeaf_typeAt {a : Nat} (ha : a < c.codes.size) : c.draft.isLeaf (c.typeAt a) = false :=
  (h.mem_bits.1 (h.typeAt_mem ha)).2

theorem not_contains_size {a : Nat} (ha : a < c.codes.size) :
    ¬ (c.codeOf a).contains c.codes.size = true := fun hx =>
  Nat.lt_irrefl _ (h.lt_of_contains ha hx)

theorem bits_nodup_insertMeet (meet : BitSet) :
    (c.insertMeet meet).typeOfBit.toList.Nodup := by
  show (c.typeOfBit.push c.draft.size).toList.Nodup
  rw [Array.toList_push, List.nodup_append]
  refine ⟨h.bits_nodup, List.nodup_singleton _, fun s hs u hu hsu => ?_⟩
  rw [List.mem_singleton.1 hu] at hsu
  exact Nat.ne_of_lt (h.mem_bits.1 (Array.mem_toList_iff.1 hs)).1 hsu

theorem mem_bits_insertMeet (meet : BitSet) (t : Nat) : t ∈ (c.insertMeet meet).typeOfBit ↔
    t < (c.insertMeet meet).draft.size ∧ (c.insertMeet meet).draft.isLeaf t = false := by
  have hdsize : (c.insertMeet meet).draft.size = c.draft.size + 1 := Draft.size_insertBetween
  show t ∈ c.typeOfBit.push c.draft.size ↔ _
  rw [Array.mem_push, h.mem_bits, hdsize, isLeaf_insertMeet c meet h.classified]
  by_cases ht : t = c.draft.size
  · simp [ht]
  · simp only [ht, or_false, if_false]
    exact and_congr_left fun _ => by omega

variable (hm : Missing n c meet)
include hm

/-- Neither the new type nor one with a new parent or child is a leaf. -/
theorem classified_insertMeet : (c.insertMeet meet).draft.Classified := by
  have hi := insertable h hm
  have hleaf := isLeaf_insertMeet c meet h.classified
  refine ⟨?_, ?_, ?_⟩
  · have hdsize : (c.insertMeet meet).draft.size = c.draft.size + 1 := Draft.size_insertBetween
    rw [hdsize, ← h.classified.leaf_size]
    simp [Closing.insertMeet, insertBetween]
  · intro t ht
    rw [hleaf] at ht
    split at ht
    · cases ht
    rename_i hne
    obtain ⟨p, hp⟩ := h.classified.leaf_parent ht
    refine ⟨p, ?_⟩
    -- a leaf type has no code, so it is no child of the new type
    have hnot : t ∉ (c.greatestBelow meet).map c.typeAt := by
      intro hmem
      obtain ⟨z, hz, rfl⟩ := List.mem_map.1 hmem
      rw [isLeaf_typeAt h (hm.lt_size ((mem_greatestBelow h hm).1 hz).1)] at ht
      cases ht
    exact ((Draft.parentsOf_insertBetween h.linked hi t).trans
      (by rw [if_neg hne, if_neg hnot])).trans hp
  · intro t p hp hlp
    rw [hleaf] at hlp ⊢
    split at hlp
    · cases hlp
    rename_i hne
    rcases (Draft.mem_parentsOf_insertBetween h.linked hi).1 hp with ⟨-, hp⟩ | ⟨-, hp⟩ | ⟨hp, -⟩
    · obtain ⟨u, hu, rfl⟩ := List.mem_map.1 hp
      rw [isLeaf_typeAt h ((mem_leastAbove h).1 hu).1.1] at hlp
      cases hlp
    · exact absurd hp hne
    · rw [if_neg (Nat.ne_of_lt (h.linked.child_lt hp))]
      exact h.classified.leaf_of_parent hp hlp

/-- The new type is below an old one just when the code of that one includes the meet. -/
theorem new_below_typeAt {a : Nat} (ha : a < c.codes.size) :
    (c.insertMeet meet).draft.Below c.draft.size (c.typeAt a) ↔
      meet.isSubset (c.codeOf a) = true := by
  refine (Draft.new_below_insertBetween h.linked (insertable h hm) (h.typeAt_lt ha)).trans ?_
  constructor
  · rintro ⟨p, hp, hpa⟩
    obtain ⟨v, hv, rfl⟩ := List.mem_map.1 hp
    obtain ⟨⟨hvl, hvm⟩, -⟩ := (mem_leastAbove h).1 hv
    have hav := (h.contains_iff ha v).2 ⟨hvl, hpa⟩
    exact BitSet.isSubset_iff.2 fun x hx =>
      h.contains_trans ha hav (BitSet.isSubset_iff.1 hvm x hx)
  · intro hsub
    obtain ⟨v, hv, hav⟩ := exists_leastAbove h ha hsub
    exact ⟨_, List.mem_map_of_mem hv, ((h.contains_iff ha v).1 hav).2⟩

/-- An old type is below the new one just when the meet contains it. -/
theorem typeAt_below_new {b : Nat} (hb : b < c.codes.size) :
    (c.insertMeet meet).draft.Below (c.typeAt b) c.draft.size ↔ meet.contains b = true := by
  refine (Draft.below_new_insertBetween h.linked (insertable h hm) (h.typeAt_lt hb)).trans ?_
  constructor
  · rintro ⟨t, ht, hbt⟩
    obtain ⟨v, hv, rfl⟩ := List.mem_map.1 ht
    have hmv := ((mem_greatestBelow h hm).1 hv).1
    exact hm.down hmv ((h.contains_iff (hm.lt_size hmv) b).2 ⟨hb, hbt⟩)
  · intro hmb
    obtain ⟨v, hv, hvb⟩ := exists_greatestBelow h hm hmb
    have hvl := hm.lt_size ((mem_greatestBelow h hm).1 hv).1
    exact ⟨_, List.mem_map_of_mem hv, ((h.contains_iff hvl b).1 hvb).2⟩

/-- Two old types are below each other as before. -/
theorem typeAt_below_typeAt {a b : Nat} (ha : a < c.codes.size) (hb : b < c.codes.size) :
    (c.insertMeet meet).draft.Below (c.typeAt b) (c.typeAt a) ↔
      (c.codeOf a).contains b = true := by
  refine (Draft.below_insertBetween h.linked (insertable h hm) (h.typeAt_lt hb)
    (h.typeAt_lt ha)).trans ?_
  exact ((h.contains_iff ha b).trans (and_iff_right hb)).symm

/-- Codes are sets of types below also after the insertion, by which of the two types is new. -/
theorem contains_insertMeet_iff {a : Nat} (ha : a < (c.insertMeet meet).codes.size) (b : Nat) :
    ((c.insertMeet meet).codeOf a).contains b = true ↔ b < (c.insertMeet meet).codes.size ∧
      (c.insertMeet meet).draft.Below ((c.insertMeet meet).typeAt b)
        ((c.insertMeet meet).typeAt a) := by
  rw [size_insertMeet] at ha ⊢
  rw [contains_insertMeet c meet ha, typeAt_insertMeet c meet h.bits_size,
    typeAt_insertMeet c meet h.bits_size]
  rcases Nat.lt_succ_iff_lt_or_eq.1 ha with ha | rfl
  · rw [if_neg (Nat.ne_of_lt ha), if_neg (Nat.ne_of_lt ha)]
    by_cases hb : b = c.codes.size
    · subst hb
      rw [if_pos rfl, new_below_typeAt h hm ha]
      simp [not_contains_size h ha]
    · rw [if_neg hb]
      simp only [hb, and_false, or_false]
      constructor
      · intro hab
        have hbl := h.lt_of_contains ha hab
        exact ⟨by omega, (typeAt_below_typeAt h hm ha hbl).2 hab⟩
      · rintro ⟨hbl, hba⟩
        exact (typeAt_below_typeAt h hm ha (by omega)).1 hba
  · rw [if_pos rfl, if_pos rfl]
    by_cases hb : b = c.codes.size
    · subst hb
      simp only [or_true, if_true, Nat.lt_succ_self, true_and, true_iff]
      exact ReflTransGen.refl
    · simp only [hb, or_false, if_false]
      constructor
      · intro hmb
        have hbl := hm.lt_size hmb
        exact ⟨by omega, (typeAt_below_new h hm hbl).2 hmb⟩
      · rintro ⟨hbl, hbg⟩
        exact (typeAt_below_new h hm (by omega)).1 hbg

/-- A code is known by its part below `n` also after the insertion, as no new bit is in that. -/
theorem contains_of_base_insertMeet {a b : Nat} (ha : a < (c.insertMeet meet).codes.size)
    (hb : b < (c.insertMeet meet).codes.size)
    (hbase : ∀ x < n, ((c.insertMeet meet).codeOf a).contains x = true →
      ((c.insertMeet meet).codeOf b).contains x = true) :
    ((c.insertMeet meet).codeOf b).contains a = true := by
  rw [size_insertMeet] at ha hb
  have hold : ∀ x < n, x ≠ c.codes.size := fun x hx => by
    have := h.base_le
    omega
  rw [contains_insertMeet c meet hb]
  simp only [contains_insertMeet c meet ha, contains_insertMeet c meet hb] at hbase
  rcases Nat.lt_succ_iff_lt_or_eq.1 ha with ha | rfl <;>
    rcases Nat.lt_succ_iff_lt_or_eq.1 hb with hb | rfl
  · rw [if_neg (Nat.ne_of_lt hb)]
    refine .inl (h.contains_of_base ha hb fun x hx hxa => ?_)
    have := hbase x hx
    simp only [Nat.ne_of_lt ha, Nat.ne_of_lt hb, if_false, hold x hx, and_false, or_false] at this
    exact this hxa
  · rw [if_pos rfl]
    refine .inl (hm.contains_of_base a ha fun x hx hxa => ?_)
    have := hbase x hx
    simp only [Nat.ne_of_lt ha, if_false, if_true, hold x hx, and_false, or_false] at this
    exact this hxa
  · rw [if_neg (Nat.ne_of_lt hb)]
    refine .inr ⟨hm.subset_of_base b hb fun x hx hxm => ?_, rfl⟩
    have := hbase x hx
    simp only [Nat.ne_of_lt hb, if_false, if_true, hold x hx, and_false, or_false] at this
    exact this hxm
  · rw [if_pos rfl]
    exact .inr rfl

theorem Sound.insertMeet : (c.insertMeet meet).Sound n where
  linked := h.linked.insertBetween (insertable h hm)
  classified := classified_insertMeet h hm
  names_nodup := names_nodup_insertMeet h.names_nodup meet
  bits_size := by simp [Closing.insertMeet, h.bits_size]
  bits_nodup := bits_nodup_insertMeet h meet
  mem_bits := mem_bits_insertMeet h meet _
  contains_iff := contains_insertMeet_iff h hm
  antisymm ht := Draft.antisymm_insertBetween h.linked (insertable h hm) h.antisymm
    (ht.trans_eq Draft.size_insertBetween)
  base_le := by
    rw [size_insertMeet]
    exact Nat.le_succ_of_le h.base_le
  contains_of_base := contains_of_base_insertMeet h hm

end Kept

end Closing

end FeatureLogic
