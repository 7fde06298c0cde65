import FeatureLogic.Proofs.Lattice.Closing

/-!
Closure under greatest lower bounds. The invariant holds at the start, and a closure that comes to
an end has a type for every common part of two codes (`Closing.Sound.rounds`).
-/

open Relation

namespace FeatureLogic

namespace Closing

/-! ## The start -/

section Start

variable {d : Draft} {order : List Nat}

theorem codedBelow_union {coded : Array Nat} {codes : Array BitSet} (code : BitSet) (child bit : Nat) :
    (match coded.idxOf? child with
      | some below => code.union (codes[below]?.getD .empty)
      | none => code).contains bit = true ↔
    code.contains bit = true ∨ ∃ j, coded.idxOf? child = some j ∧
      (codes[j]?.getD .empty).contains bit = true := by
  cases coded.idxOf? child <;> simp

/-- What the bits of the start are: the coded types in their order. -/
structure Bits (d : Draft) (coded : Array Nat) : Prop where
  nodup : coded.toList.Nodup
  mem_iff : ∀ {t}, t ∈ coded ↔ t < d.size ∧ d.isLeaf t = false
  lt_of_child : ∀ {i j : Nat} (hi : i < coded.size) (hj : j < coded.size),
    coded[j] ∈ d.childrenOf coded[i] → i < j

theorem bits_of_ordered (h : d.Linked) (ho : d.Ordered order) :
    Bits d (order.filter fun t => !d.isLeaf t).toArray where
  nodup := ho.nodup.filter _
  mem_iff := by
    intro t
    simp [ho.mem_iff]
  lt_of_child := by
    intro i j hi hj hc
    have hpar := h.mem_childrenOf.1 hc
    have hfirst := List.pairwise_iff_getElem.1 (ho.parents_first.filter fun t => !d.isLeaf t)
    rcases Nat.lt_trichotomy i j with hlt | rfl | hgt
    · exact hlt
    · exact absurd hpar (ho.irrefl _)
    · exact absurd hpar (hfirst j i hj hi hgt)

theorem idxOf?_eq_some_iff {coded : Array Nat} (hnd : coded.toList.Nodup) {t j : Nat} :
    coded.idxOf? t = some j ↔ coded[j]? = some t := by
  rw [Array.idxOf?_eq_map_finIdxOf?_val, Option.map_eq_some_iff]
  constructor
  · rintro ⟨i, hi, rfl⟩
    rw [Array.getElem?_eq_some_iff]
    exact ⟨i.isLt, (Array.finIdxOf?_eq_some_iff.1 hi).1⟩
  · intro hj
    obtain ⟨hlt, rfl⟩ := Array.getElem?_eq_some_iff.1 hj
    refine ⟨⟨j, hlt⟩, Array.finIdxOf?_eq_some_iff.2 ⟨rfl, fun i hij heq => ?_⟩, rfl⟩
    have hlt' : i.val < j := hij
    have hval : i.val = j :=
      (@List.Nodup.getElem_inj_iff _ _ hnd _ i.isLt _ hlt).1 (by simpa using heq)
    omega

theorem codesOf_spec {coded : Array Nat} (hb : Bits d coded) :
    (codesOf d coded).size = coded.size ∧ ∀ i < coded.size, ∀ bit,
      ((codesOf d coded)[i]?.getD .empty).contains bit = true ↔ bit = i ∨
        ∃ j, (∃ (hi : i < coded.size) (hj : j < coded.size), coded[j] ∈ d.childrenOf coded[i]) ∧
          ((codesOf d coded)[j]?.getD .empty).contains bit = true := by
  obtain ⟨hsize, hget⟩ := Codes.getElem?_foldr_set (fun bit codes =>
    (d.childrenOf (coded[bit]?.getD 0)).foldl (fun code child =>
      match coded.idxOf? child with
      | some below => code.union (codes[below]?.getD .empty)
      | none => code) ((BitSet.ofSize coded.size).insert bit)) coded.size
    (.replicate coded.size (.ofSize coded.size)) (by simp) (by
      -- the bits of children come later
      intro i hi c c' hlater
      refine List.foldl_ext _ _ _ fun code child hc => ?_
      cases hidx : coded.idxOf? child with
      | none => rfl
      | some j =>
        obtain ⟨hj, hcj⟩ := Array.getElem?_eq_some_iff.1 ((idxOf?_eq_some_iff hb.nodup).1 hidx)
        rw [Array.getElem?_eq_getElem hi, Option.getD_some, ← hcj] at hc
        simp only [hlater j (hb.lt_of_child hi hj hc)])
  refine ⟨hsize, fun i hi bit => ?_⟩
  have hi' : (codesOf d coded)[i]? = some ((d.childrenOf (coded[i]?.getD 0)).foldl
      (fun code child => match coded.idxOf? child with
        | some below => code.union ((codesOf d coded)[below]?.getD .empty)
        | none => code) ((BitSet.ofSize coded.size).insert i)) := hget i hi
  rw [hi', Option.getD_some, BitSet.contains_foldl codedBelow_union]
  simp only [BitSet.contains_insert, BitSet.contains_ofSize, Bool.false_or, beq_iff_eq]
  refine or_congr eq_comm ?_
  rw [Array.getElem?_eq_getElem hi, Option.getD_some]
  constructor
  · rintro ⟨child, hc, j, hj, hbit⟩
    obtain ⟨hjl, rfl⟩ := Array.getElem?_eq_some_iff.1 ((idxOf?_eq_some_iff hb.nodup).1 hj)
    exact ⟨j, ⟨hi, hjl, hc⟩, hbit⟩
  · rintro ⟨j, ⟨_, hjl, hc⟩, hbit⟩
    exact ⟨coded[j], hc, j, (idxOf?_eq_some_iff hb.nodup).2 (Array.getElem?_eq_getElem hjl), hbit⟩

/-- A way up from a coded type leads through coded types only. -/
theorem below_iff_bits (h : d.Linked) (hc : d.Classified) {coded : Array Nat} (hb : Bits d coded)
    {a b : Nat} (ha : a < coded.size) (hbl : b < coded.size) :
    ReflTransGen (fun j i => ∃ (hi : i < coded.size) (hj : j < coded.size),
      coded[j] ∈ d.childrenOf coded[i]) b a ↔ d.Below coded[b] coded[a] := by
  constructor
  · intro hba
    have hgen : ∀ i (hi : i < coded.size), ReflTransGen (fun j i =>
        ∃ (hi : i < coded.size) (hj : j < coded.size), coded[j] ∈ d.childrenOf coded[i]) b i →
        d.Below coded[b] coded[i] := by
      intro i hi hbi
      induction hbi with
      | refl => exact ReflTransGen.refl
      | tail _ hstep ih =>
        obtain ⟨hi, hj, hmem⟩ := hstep
        exact (ih hj).tail (h.mem_childrenOf.1 hmem)
    exact hgen a ha hba
  · intro hba
    have hgen : ∀ u, d.Below coded[b] u → ∃ i, ∃ hi : i < coded.size, coded[i] = u ∧
        ReflTransGen (fun j i => ∃ (hi : i < coded.size) (hj : j < coded.size),
          coded[j] ∈ d.childrenOf coded[i]) b i := by
      intro u hbu
      induction hbu with
      | refl => exact ⟨b, hbl, rfl, ReflTransGen.refl⟩
      | @tail s p _ hp ih =>
        obtain ⟨j, hj, rfl, hbj⟩ := ih
        have hcoded := (hb.mem_iff.1 (Array.getElem_mem hj)).2
        -- a parent is no leaf type, so it is coded as well
        have hpc : p ∈ coded := by
          refine hb.mem_iff.2 ⟨h.parent_lt hp, ?_⟩
          by_contra hleaf
          rw [hc.leaf_of_parent hp (by simpa using hleaf)] at hcoded
          cases hcoded
        obtain ⟨i, hi, rfl⟩ := Array.getElem_of_mem hpc
        exact ⟨i, hi, rfl, hbj.tail ⟨hi, hj, h.mem_childrenOf.2 hp⟩⟩
    obtain ⟨i, hi, heq, hbi⟩ := hgen _ hba
    rwa [(@List.Nodup.getElem_inj_iff _ _ hb.nodup _ hi _ ha).1 (by simpa using heq)] at hbi

theorem sound_start (h : d.Linked) (hc : d.Classified) (hnames : d.names.toList.Nodup)
    (ho : d.Ordered order) : (start d order).Sound (start d order).codes.size := by
  have hb := bits_of_ordered h ho
  obtain ⟨hsize, hcodes⟩ := codesOf_spec hb
  have hget : ∀ {a} (ha : a < (order.filter fun t => !d.isLeaf t).toArray.size),
      (start d order).typeAt a = (order.filter fun t => !d.isLeaf t).toArray[a] := by
    intro a ha
    simp only [typeAt, start]
    rw [Array.getElem?_eq_getElem ha, Option.getD_some]
  have hcontains : ∀ {a}, a < (start d order).codes.size → ∀ b,
      ((start d order).codeOf a).contains b = true ↔ b < (start d order).codes.size ∧
        d.Below ((start d order).typeAt b) ((start d order).typeAt a) := by
    intro a ha b
    have ha' : a < (order.filter fun t => !d.isLeaf t).toArray.size := hsize ▸ ha
    have hiff := Codes.contains_iff_below _ _ (fun {i j} hchild => by
      obtain ⟨hi, hj, hmem⟩ := hchild
      exact ⟨hb.lt_of_child hi hj hmem, hj⟩) hcodes ha' b
    refine hiff.trans ?_
    constructor
    · intro hba
      have hbl : b < (order.filter fun t => !d.isLeaf t).toArray.size := by
        rcases ReflTransGen.cases_head hba with rfl | ⟨j, ⟨-, hbl, -⟩, -⟩
        · exact ha'
        · exact hbl
      refine ⟨hsize.symm ▸ hbl, ?_⟩
      rw [hget ha', hget hbl]
      exact (below_iff_bits h hc hb ha' hbl).1 hba
    · rintro ⟨hbl, hba⟩
      have hbl' : b < (order.filter fun t => !d.isLeaf t).toArray.size := hsize ▸ hbl
      rw [hget ha', hget hbl'] at hba
      exact (below_iff_bits h hc hb ha' hbl').2 hba
  refine ⟨h, hc, hnames, hsize.symm, hb.nodup, hb.mem_iff, hcontains, ?_, Nat.le_refl _, ?_⟩
  · intro t u _ htu hut
    exact ho.antisymm h htu hut
  · intro a b ha hbl hbase
    have hself : ((start d order).codeOf a).contains a = true :=
      (hcontains ha a).2 ⟨ha, ReflTransGen.refl⟩
    exact hbase a ha hself

/-- The universal type is coded, so there is a code. -/
theorem size_start_pos (h : d.Linked) (hc : d.Classified) (hnames : d.names.toList.Nodup)
    (ho : d.Ordered order) (hpos : 0 < d.size) : 0 < (start d order).codes.size := by
  have hstart := sound_start h hc hnames ho
  have hzero : d.isLeaf 0 = false := by
    by_contra hleaf
    obtain ⟨p, hp⟩ := hc.leaf_parent (by simpa using hleaf)
    rw [(h.parents_eq_nil hpos).2 rfl] at hp
    cases hp
  have hmem : 0 ∈ (start d order).typeOfBit := hstart.mem_bits.2 ⟨hpos, hzero⟩
  rw [← hstart.bits_size]
  exact Array.size_pos_of_mem hmem

end Start

/-! ## Going through the pairs -/

theorem inserted_insertMeet (c : Closing) (meet : BitSet) :
    (c.insertMeet meet).inserted = c.inserted + 1 := rfl

theorem Sound.scan {n : Nat} (fuel : Nat) {a b : Nat} {c : Closing} (h : c.Sound n)
    (ha : a < c.codes.size) :
    (scan fuel a b c).Sound n ∧ c.inserted ≤ (scan fuel a b c).inserted := by
  induction fuel generalizing a b c with
  | zero => exact ⟨h, Nat.le_refl _⟩
  | succ fuel ih =>
    unfold Closing.scan
    split
    · rename_i hb
      split
      · rename_i meet hm
        have hmissing := missing_of_missingMeet h ha hb hm
        have hgrown : a < (c.insertMeet meet).codes.size := by
          rw [size_insertMeet]
          omega
        obtain ⟨h₁, h₂⟩ := ih (b := b + 1) (h.insertMeet hmissing) hgrown
        rw [inserted_insertMeet] at h₂
        exact ⟨h₁, by omega⟩
      · exact ih h ha
    · split
      · rename_i ha'
        exact ih h ha'
      · exact ⟨h, Nat.le_refl _⟩

theorem size_le_scan (fuel a b : Nat) (c : Closing) :
    c.codes.size ≤ (scan fuel a b c).codes.size := by
  induction fuel generalizing a b c with
  | zero => exact Nat.le_refl _
  | succ fuel ih =>
    unfold Closing.scan
    split
    · split
      · rename_i meet _
        have := ih a (b + 1) (c.insertMeet meet)
        rw [size_insertMeet] at this
        omega
      · exact ih a (b + 1) c
    · split
      · exact ih (a + 1) (a + 2) c
      · exact Nat.le_refl _

/-- The turns that a scan from a pair takes when it inserts nothing. -/
def remaining (size a b : Nat) : Nat := (size - a) * (size + 1) + (size - b)

/-- A scan that inserts nothing has found no pair from `(a, b)` on whose meet is missing. -/
theorem scan_quiet {n : Nat} (fuel : Nat) {a b : Nat} {c : Closing} (h : c.Sound n)
    (ha : a < c.codes.size) (hfuel : remaining c.codes.size a b ≤ fuel)
    (hquiet : (scan fuel a b c).inserted = c.inserted) :
    scan fuel a b c = c ∧ ∀ a' b', (a' = a ∧ b ≤ b' ∨ a < a' ∧ a' < b') → b' < c.codes.size →
      c.missingMeet a' b' = none := by
  induction fuel generalizing a b with
  | zero =>
    have : 0 < (c.codes.size - a) * (c.codes.size + 1) := Nat.mul_pos (by omega) (by omega)
    unfold remaining at hfuel
    omega
  | succ fuel ih =>
    unfold scan at hquiet ⊢
    split at hquiet
    · rename_i hb
      rw [if_pos hb]
      cases hm : c.missingMeet a b with
      | some meet =>
        rw [hm] at hquiet
        -- an insertion would have been counted
        have hgrown : a < (c.insertMeet meet).codes.size := by
          rw [size_insertMeet]
          omega
        have := ((h.insertMeet (missing_of_missingMeet h ha hb hm)).scan fuel (b := b + 1) hgrown).2
        rw [inserted_insertMeet] at this
        simp only at hquiet
        omega
      | none =>
        rw [hm] at hquiet
        obtain ⟨h₁, h₂⟩ := ih ha (by unfold remaining at hfuel ⊢; omega) hquiet
        refine ⟨h₁, fun a' b' hab hb' => ?_⟩
        by_cases hhere : a' = a ∧ b' = b
        · rw [hhere.1, hhere.2, hm]
        · exact h₂ a' b' (by omega) hb'
    · rename_i hb
      rw [if_neg hb]
      split at hquiet
      · rename_i ha'
        rw [if_pos ha']
        obtain ⟨h₁, h₂⟩ := ih ha' (by
          unfold remaining at hfuel ⊢
          have : c.codes.size - a = (c.codes.size - (a + 1)) + 1 := by omega
          rw [this, Nat.add_mul] at hfuel
          omega) hquiet
        exact ⟨h₁, fun a' b' hab hb' => h₂ a' b' (by omega) hb'⟩
      · rename_i ha'
        rw [if_neg ha']
        exact ⟨rfl, fun a' b' hab hb' => by omega⟩

/-! ## The end -/

/-- Every common part of two codes is the code of a type. -/
def Closed (c : Closing) : Prop := ∀ a b, a < c.codes.size → b < c.codes.size →
  (∃ x, (c.codeOf a).contains x = true ∧ (c.codeOf b).contains x = true) →
  ∃ m < c.codes.size, ∀ x, (c.codeOf m).contains x = true ↔
    (c.codeOf a).contains x = true ∧ (c.codeOf b).contains x = true

theorem Sound.meet_of_missingMeet_eq_none {n : Nat} {c : Closing} (h : c.Sound n) {a b : Nat}
    (ha : a < c.codes.size) (hb : b < c.codes.size) (hm : c.missingMeet a b = none)
    (hx : ∃ x, (c.codeOf a).contains x = true ∧ (c.codeOf b).contains x = true) :
    ∃ m < c.codes.size, ∀ x, (c.codeOf m).contains x = true ↔
      (c.codeOf a).contains x = true ∧ (c.codeOf b).contains x = true := by
  simp only [missingMeet] at hm
  split at hm
  · rename_i hsub
    rw [Bool.or_eq_true, h.isSubset_iff_contains ha hb, h.isSubset_iff_contains hb ha] at hsub
    -- one of the two is the meet
    rcases hsub with hab | hba
    · exact ⟨a, ha, fun x => ⟨fun hxa => ⟨hxa, h.contains_trans hb hab hxa⟩, And.left⟩⟩
    · exact ⟨b, hb, fun x => ⟨fun hxb => ⟨h.contains_trans ha hba hxb, hxb⟩, And.right⟩⟩
  split at hm
  · rename_i hmeet
    rw [Bool.or_eq_true] at hmeet
    rcases hmeet with hzero | hany
    · obtain ⟨x, hxa, hxb⟩ := hx
      have : ((c.codeOf a).inter (c.codeOf b)).isZero = false :=
        BitSet.isZero_eq_false_iff.2 ⟨x, by simp [hxa, hxb]⟩
      rw [this] at hzero
      cases hzero
    · obtain ⟨m, hml, hsame⟩ := Array.any_eq_true.1 hany
      refine ⟨m, hml, fun x => ?_⟩
      rw [codeOf, Array.getElem?_eq_getElem hml, Option.getD_some]
      rw [← BitSet.sameBits_iff.1 hsame x]
      simp
  · cases hm

/-- There are not more codes than sets of the first bits. -/
theorem Sound.size_le {n : Nat} {c : Closing} (h : c.Sound n) : c.codes.size ≤ Nat.pow 2 n := by
  have hinj : ∀ a ∈ Finset.range c.codes.size, ∀ b ∈ Finset.range c.codes.size,
      (c.codeOf a).bits % 2 ^ n = (c.codeOf b).bits % 2 ^ n → a = b := by
    intro a ha b hb hab
    rw [Finset.mem_range] at ha hb
    have hbase : ∀ x < n, ((c.codeOf a).contains x = true ↔ (c.codeOf b).contains x = true) := by
      intro x hx
      have := congrArg (fun m => Nat.testBit m x) hab
      simp only [Nat.testBit_mod_two_pow, hx, decide_true, Bool.true_and] at this
      simp only [BitSet.contains, this]
    exact h.contains_antisymm ha hb (h.contains_of_base ha hb fun x hx => (hbase x hx).1)
      (h.contains_of_base hb ha fun x hx => (hbase x hx).2)
  have := Finset.card_le_card_of_injOn (s := Finset.range c.codes.size)
    (t := Finset.range (2 ^ n)) (fun a => (c.codeOf a).bits % 2 ^ n)
    (fun a _ => by simpa using Nat.mod_lt _ (Nat.two_pow_pos n)) hinj
  have hle : c.codes.size ≤ 2 ^ n := by simpa using this
  exact hle

theorem Sound.round {n : Nat} {c : Closing} (h : c.Sound n) (hpos : 0 < c.codes.size) :
    (c.round n).Sound n := (h.scan _ hpos).1

theorem Sound.closed_of_round {n : Nat} {c : Closing} (h : c.Sound n) (hpos : 0 < c.codes.size)
    (hquiet : (c.round n).inserted = c.inserted) : c.round n = c ∧ c.Closed := by
  have hfuel : remaining c.codes.size 0 1 ≤ Nat.pow 4 (n + 1) := by
    have hle : c.codes.size ≤ 2 ^ n := h.size_le
    have hsq : c.codes.size * c.codes.size ≤ 4 ^ n := by
      calc c.codes.size * c.codes.size ≤ 2 ^ n * 2 ^ n := Nat.mul_le_mul hle hle
        _ = 4 ^ n := by rw [← Nat.mul_pow]
    have hlin : c.codes.size ≤ c.codes.size * c.codes.size := Nat.le_mul_of_pos_left _ hpos
    have : Nat.pow 4 (n + 1) = 4 ^ n * 4 := rfl
    unfold remaining
    rw [this, Nat.sub_zero, Nat.mul_add, Nat.mul_one]
    omega
  obtain ⟨h₁, h₂⟩ := scan_quiet _ h hpos hfuel hquiet
  refine ⟨h₁, fun a b ha hb hx => ?_⟩
  rcases Nat.lt_trichotomy a b with hlt | rfl | hgt
  · exact h.meet_of_missingMeet_eq_none ha hb (h₂ a b (by omega) hb) hx
  · exact ⟨a, ha, fun x => by simp⟩
  · obtain ⟨m, hm, hmx⟩ := h.meet_of_missingMeet_eq_none hb ha (h₂ b a (by omega) ha)
      (hx.imp fun x hx => hx.symm)
    exact ⟨m, hm, fun x => (hmx x).trans and_comm⟩

theorem Sound.rounds {n : Nat} (left : Nat) {c c' : Closing} (h : c.Sound n)
    (hpos : 0 < c.codes.size) (hr : rounds n left c = .ok c') : c'.Sound n ∧ c'.Closed := by
  induction left generalizing c with
  | zero => cases hr
  | succ left ih =>
    simp only [Closing.rounds] at hr
    split at hr
    · rename_i hquiet
      obtain ⟨h₁, h₂⟩ := h.closed_of_round hpos hquiet
      cases hr
      rw [h₁]
      exact ⟨h, h₂⟩
    · refine ih (h.round hpos) ?_ hr
      exact Nat.lt_of_lt_of_le hpos (size_le_scan _ _ _ _)

end Closing

end FeatureLogic
