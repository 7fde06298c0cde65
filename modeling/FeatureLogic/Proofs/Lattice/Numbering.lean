import Mathlib.Data.List.Sort
import FeatureLogic.Lattice.Hierarchy
import FeatureLogic.Proofs.Lattice.Closure

/-!
The final numbers. A finished hierarchy has the links of the draft it was made from under new
numbers, with parents before children and coded types before leaf types, and codes that say which
coded types are below which (`Hierarchy.Sound`).
-/

open Relation

namespace FeatureLogic

/-! ## Name tables of distinct names -/

namespace NameTable

theorem size_foldl_insert (list : List String) (t : NameTable) (hnd : list.Nodup)
    (hnew : ∀ name ∈ list, t.index? name = none) :
    (list.foldl insert t).size = t.size + list.length := by
  induction list generalizing t with
  | nil => rfl
  | cons name rest ih =>
    obtain ⟨hname, hrest⟩ := List.nodup_cons.1 hnd
    have hfirst := hnew name (by simp)
    rw [List.foldl_cons, ih _ hrest, size_insert_of_new hfirst, List.length_cons]
    · omega
    · intro other hother
      have hne : other ≠ name := fun heq => hname (heq ▸ hother)
      have hnone := hnew other (by simp [hother])
      simp only [index?, Array.idxOf?_eq_none_iff] at hnone hfirst ⊢
      unfold insert
      split
      · exact hnone
      · simp [hnone, hne]

theorem size_ofList {list : List String} (hnd : list.Nodup) : (ofList list).size = list.length := by
  rw [ofList, size_foldl_insert list _ hnd fun name _ => by simp [index?, empty]]
  exact Nat.zero_add _

end NameTable

/-! ## What is said of a draft -/

namespace Draft

/-- Any two coded types with a coded type below both have a greatest one. -/
def MeetClosed (d : Draft) : Prop :=
  ∀ {s t}, s < d.size → t < d.size → d.isLeaf s = false → d.isLeaf t = false →
    (∃ u < d.size, d.isLeaf u = false ∧ d.Below u s ∧ d.Below u t) →
    ∃ m < d.size, d.isLeaf m = false ∧ d.Below m s ∧ d.Below m t ∧
      ∀ u < d.size, d.isLeaf u = false → d.Below u s → d.Below u t → d.Below u m

theorem ordered_markLeaves {d : Draft} {order leaves : List Nat} (ho : d.Ordered order) :
    (d.markLeaves leaves).Ordered order := by
  obtain ⟨h₁, h₂, -, -⟩ := d.markLeaves_same leaves
  have hp : ∀ t, (d.markLeaves leaves).parentsOf t = d.parentsOf t := fun t => by
    simp only [parentsOf, h₂]
  refine ⟨ho.nodup, ?_, ?_, ?_⟩
  · intro t
    rw [size, h₁]
    exact ho.mem_iff
  · simp only [hp]
    exact ho.parents_first
  · simp only [hp]
    exact ho.irrefl

theorem meetClosed_of_closed {n : Nat} {c : Closing} (h : c.Sound n) (hc : c.Closed) :
    c.draft.MeetClosed := by
  intro s t hs ht hls hlt hlower
  obtain ⟨u, hu, hlu, hus, hut⟩ := hlower
  obtain ⟨a, ha, rfl⟩ := h.exists_typeAt hs hls
  obtain ⟨b, hb, rfl⟩ := h.exists_typeAt ht hlt
  obtain ⟨x, hx, rfl⟩ := h.exists_typeAt hu hlu
  obtain ⟨m, hm, hmeet⟩ := hc a b ha hb
    ⟨x, (h.contains_iff ha x).2 ⟨hx, hus⟩, (h.contains_iff hb x).2 ⟨hx, hut⟩⟩
  obtain ⟨hma, hmb⟩ := (hmeet m).1 (h.contains_self hm)
  refine ⟨c.typeAt m, h.typeAt_lt hm, (h.mem_bits.1 (h.typeAt_mem hm)).2,
    ((h.contains_iff ha m).1 hma).2, ((h.contains_iff hb m).1 hmb).2, ?_⟩
  intro v hv hlv hvs hvt
  obtain ⟨y, hy, rfl⟩ := h.exists_typeAt hv hlv
  exact ((h.contains_iff hm y).1 ((hmeet y).2
    ⟨(h.contains_iff ha y).2 ⟨hy, hvs⟩, (h.contains_iff hb y).2 ⟨hy, hvt⟩⟩)).2

end Draft

/-- The closure of resolved declarations begins with a sound state that has a code. -/
theorem Closing.start_of_declarations {d : Declarations} (hd : d.Sound) {draft : Draft} {order : List Nat}
    (hdraft : Draft.ofDeclarations d = .ok draft) (horder : draft.ordering = .ok order) :
    let start := Closing.start (draft.markLeaves order) order
    start.Sound start.codes.size ∧ 0 < start.codes.size := by
  obtain ⟨hlinked, hnames, hleaf⟩ := Draft.linked_of_declarations hd hdraft
  have ho := Draft.ordered_of_ordering hlinked horder
  have hsame := (draft.markLeaves_same order).1
  have hnodup : (draft.markLeaves order).names.toList.Nodup := by
    rw [hsame, hnames]
    exact d.names.nodup
  have hpos : 0 < (draft.markLeaves order).size := by
    rw [Draft.size, hsame, hnames]
    exact hd.size_pos
  have hlinked' := Draft.linked_markLeaves hlinked order
  have hclassified := Draft.classified_markLeaves hlinked hleaf ho
  exact ⟨Closing.sound_start hlinked' hclassified hnodup (Draft.ordered_markLeaves ho),
    Closing.size_start_pos hlinked' hclassified hnodup (Draft.ordered_markLeaves ho) hpos⟩

namespace Hierarchy

/-! ## Sound hierarchies -/

/-- The reflexive and transitive closure of the links to parents. -/
def Below (h : Hierarchy) : Nat → Nat → Prop := ReflTransGen fun t p => p ∈ h.parentsOf t

/-- What holds of a finished hierarchy. -/
structure Sound (h : Hierarchy) : Prop where
  firstLeaf_pos : 0 < h.firstLeaf
  firstLeaf_le : h.firstLeaf ≤ h.size
  parent_lt : ∀ {t p}, p ∈ h.parentsOf t → p < t ∧ t < h.size
  parents_eq_nil : ∀ {t}, t < h.size → (h.parentsOf t = [] ↔ t = 0)
  leaf_parent : ∀ {t}, h.isLeaf t = true → ∃ p, h.parentsOf t = [p]
  contains_iff : ∀ {a}, a < h.firstLeaf → ∀ b, (h.codeOf a).contains b = true ↔
    b < h.firstLeaf ∧ h.Below b a
  meet : ∀ {s t}, s < h.firstLeaf → t < h.firstLeaf →
    (∃ u < h.firstLeaf, h.Below u s ∧ h.Below u t) →
    ∃ m < h.firstLeaf, h.Below m s ∧ h.Below m t ∧
      ∀ u < h.firstLeaf, h.Below u s → h.Below u t → h.Below u m

/-! ## Codes -/

theorem contains_codesOf (count : Nat) {children : Array (List Nat)}
    (hlt : ∀ {i j : Nat}, j ∈ children[i]?.getD [] → i < j) :
    (codesOf count children).size = count ∧ ∀ {i}, i < count → ∀ bit,
      ((codesOf count children)[i]?.getD .empty).contains bit = true ↔
        ReflTransGen (fun j i => j ∈ children[i]?.getD [] ∧ j < count) bit i := by
  obtain ⟨hsize, hget⟩ := Codes.getElem?_foldr_set (fun id codes =>
    (children[id]?.getD []).foldl (fun code child =>
      if child < count then code.union (codes[child]?.getD .empty) else code)
      ((BitSet.ofSize count).insert id)) count (.replicate count (.ofSize count)) (by simp) (by
      intro i _ c c' hlater
      refine List.foldl_ext _ _ _ fun code child hc => ?_
      simp only [hlater child (hlt hc)])
  -- the codes of children that have none add nothing
  have hunion : ∀ (code : BitSet) child bit,
      (if child < count then code.union ((codesOf count children)[child]?.getD .empty)
        else code).contains bit = true ↔ code.contains bit = true ∨
      child < count ∧ ((codesOf count children)[child]?.getD .empty).contains bit = true := by
    intro code child bit
    by_cases hcl : child < count <;> simp [hcl]
  refine ⟨hsize, fun hi bit => Codes.contains_iff_below
    (fun i j => j ∈ children[i]?.getD [] ∧ j < count)
    (fun i => (codesOf count children)[i]?.getD .empty)
    (fun hc => ⟨hlt hc.1, hc.2⟩) ?_ hi bit⟩
  intro i hi bit
  have hi' : (codesOf count children)[i]? = some ((children[i]?.getD []).foldl (fun code child =>
      if child < count then code.union ((codesOf count children)[child]?.getD .empty) else code)
      ((BitSet.ofSize count).insert i)) := hget i hi
  rw [hi', Option.getD_some, BitSet.contains_foldl hunion]
  simp only [BitSet.contains_insert, BitSet.contains_ofSize, Bool.false_or, beq_iff_eq]
  exact or_congr eq_comm (exists_congr fun j => by tauto)

/-! ## Renumbering -/

/-- The types of a draft in the order of their final numbers. -/
def sequence (d : Draft) (order : List Nat) : List Nat :=
  order.filter (fun t => !d.isLeaf t) ++ order.filter d.isLeaf

section Renumbering

variable {d : Draft} {order : List Nat}

theorem ordered_sequence (hc : d.Classified) (ho : d.Ordered order) :
    d.Ordered (sequence d order) where
  nodup := by
    rw [sequence, List.nodup_append]
    refine ⟨ho.nodup.filter _, ho.nodup.filter _, ?_⟩
    rintro t ht u hu rfl
    have := (List.mem_filter.1 ht).2
    rw [(List.mem_filter.1 hu).2] at this
    cases this
  mem_iff := by
    intro t
    rw [sequence, List.mem_append, List.mem_filter, List.mem_filter, ho.mem_iff]
    cases d.isLeaf t <;> simp
  parents_first := by
    rw [sequence, List.pairwise_append]
    refine ⟨ho.parents_first.filter _, ho.parents_first.filter _, fun t ht u hu hpar => ?_⟩
    have := (List.mem_filter.1 ht).2
    rw [hc.leaf_of_parent hpar (List.mem_filter.1 hu).2] at this
    cases this
  irrefl := ho.irrefl

theorem length_sequence (hc : d.Classified) (ho : d.Ordered order) :
    (sequence d order).length = d.size := by
  have hs := ordered_sequence hc ho
  have hperm : (sequence d order).Perm (List.range d.size) :=
    (List.perm_ext_iff_of_nodup hs.nodup List.nodup_range).2 fun t =>
      hs.mem_iff.trans List.mem_range.symm
  rw [hperm.length_eq, List.length_range]

/-- The array that a list of distinct places is written to holds their positions. -/
theorem getD_foldl_zipIdx (list : List Nat) (k : Nat) (init : Array Nat) (hnd : list.Nodup)
    (hlt : ∀ t ∈ list, t < init.size) (t : Nat) :
    ((list.zipIdx k).foldl (fun number (t, id) => number.setIfInBounds t id) init)[t]?.getD 0 =
      if t ∈ list then k + list.idxOf t else init[t]?.getD 0 := by
  induction list generalizing k init with
  | nil => simp
  | cons x rest ih =>
    obtain ⟨hx, hrest⟩ := List.nodup_cons.1 hnd
    have hxl := hlt x (by simp)
    rw [List.zipIdx_cons, List.foldl_cons,
      ih (k + 1) _ hrest fun t ht => by simpa using hlt t (by simp [ht])]
    by_cases htx : t = x
    · subst htx
      simp [hx, hxl]
    · by_cases ht : t ∈ rest
      · rw [if_pos ht, if_pos (List.mem_cons_of_mem _ ht), List.idxOf_cons_ne _ (Ne.symm htx)]
        omega
      · rw [if_neg ht, if_neg (by simp [htx, ht]), Array.getElem?_setIfInBounds,
          if_neg (Ne.symm htx)]

/-- What a list of places of the draft becomes under the final numbers. -/
theorem mem_renumber {list places : List Nat} {size i : Nat} (hnd : list.Nodup)
    (hlt : ∀ t ∈ list, t < size) (hplaces : ∀ t ∈ places, t ∈ list) :
    i ∈ (places.map fun t => (list.zipIdx.foldl (fun number (t, id) =>
      number.setIfInBounds t id) (Array.replicate size 0))[t]?.getD 0).mergeSort (· ≤ ·) ↔
    ∃ hi : i < list.length, list[i] ∈ places := by
  rw [List.mem_mergeSort, List.mem_map]
  constructor
  · rintro ⟨t, ht, rfl⟩
    rw [getD_foldl_zipIdx list 0 _ hnd (by simpa using hlt), if_pos (hplaces t ht), Nat.zero_add]
    have hlen := List.idxOf_lt_length_of_mem (hplaces t ht)
    exact ⟨hlen, by rwa [List.getElem_idxOf hlen]⟩
  · rintro ⟨hi, ht⟩
    refine ⟨list[i], ht, ?_⟩
    rw [getD_foldl_zipIdx list 0 _ hnd (by simpa using hlt), if_pos (List.getElem_mem hi),
      hnd.idxOf_getElem, Nat.zero_add]

/-- Distinct places have distinct numbers. -/
theorem nodup_renumber {list places : List Nat} {size : Nat} (hnd : list.Nodup)
    (hlt : ∀ t ∈ list, t < size) (hplaces : ∀ t ∈ places, t ∈ list) (hpnd : places.Nodup) :
    ((places.map fun t => (list.zipIdx.foldl (fun number (t, id) =>
      number.setIfInBounds t id) (Array.replicate size 0))[t]?.getD 0).mergeSort (· ≤ ·)).Nodup := by
  rw [(List.mergeSort_perm _ _).nodup_iff]
  refine hpnd.map_on fun t ht u hu heq => ?_
  rw [getD_foldl_zipIdx list 0 _ hnd (by simpa using hlt), if_pos (hplaces t ht),
    getD_foldl_zipIdx list 0 _ hnd (by simpa using hlt), if_pos (hplaces u hu),
    Nat.add_left_cancel_iff] at heq
  exact (List.idxOf_inj (hplaces t ht)).1 heq

theorem getD_map_toArray {list : List Nat} {f : Nat → List Nat} {i : Nat} (hi : i < list.length) :
    (list.map f).toArray[i]?.getD [] = f list[i] := by
  simp [hi]

theorem length_parentsOf_ofDraft {i : Nat} (hi : i < (sequence d order).length) :
    ((ofDraft d order).parentsOf i).length = (d.parentsOf (sequence d order)[i]).length := by
  have heq : (ofDraft d order).parentsOf i = _ := getD_map_toArray hi
  rw [heq, List.length_mergeSort, List.length_map]

theorem parentsOf_ofDraft_of_le {i : Nat} (hi : (sequence d order).length ≤ i) :
    (ofDraft d order).parentsOf i = [] := by
  have : (ofDraft d order).parentsOf i =
    ((sequence d order).map _).toArray[i]?.getD [] := rfl
  rw [this, Array.getElem?_eq_none (by simpa using hi)]
  rfl

theorem lt_length_of_mem_childrenOf {i j : Nat} (hj : j ∈ (ofDraft d order).childrenOf i) :
    i < (sequence d order).length := by
  by_contra hge
  have heq : (ofDraft d order).childrenOf i =
    ((sequence d order).map _).toArray[i]?.getD [] := rfl
  rw [heq, Array.getElem?_eq_none (by simpa using hge)] at hj
  cases hj

variable (h : d.Linked) (hc : d.Classified) (ho : d.Ordered order)
include h hc ho

theorem mem_parentsOf_ofDraft {i : Nat} (hi : i < (sequence d order).length) {j : Nat} :
    j ∈ (ofDraft d order).parentsOf i ↔ ∃ hj : j < (sequence d order).length,
      (sequence d order)[j] ∈ d.parentsOf (sequence d order)[i] := by
  have hs := ordered_sequence hc ho
  have heq : (ofDraft d order).parentsOf i = _ := getD_map_toArray hi
  rw [heq]
  exact mem_renumber hs.nodup (fun t => hs.mem_iff.1) fun t ht => hs.mem_iff.2 (h.parent_lt ht)

theorem mem_childrenOf_ofDraft {i : Nat} (hi : i < (sequence d order).length) {j : Nat} :
    j ∈ (ofDraft d order).childrenOf i ↔ ∃ hj : j < (sequence d order).length,
      (sequence d order)[i] ∈ d.parentsOf (sequence d order)[j] := by
  have hs := ordered_sequence hc ho
  have heq : (ofDraft d order).childrenOf i = _ := getD_map_toArray hi
  rw [heq]
  refine (mem_renumber hs.nodup (fun t => hs.mem_iff.1) fun t ht => ?_).trans ?_
  · exact hs.mem_iff.2 (h.child_lt (h.mem_childrenOf.1 ht))
  · exact exists_congr fun hj => h.mem_childrenOf

theorem lt_of_mem_parentsOf {i j : Nat} (hi : i < (sequence d order).length)
    (hj : j ∈ (ofDraft d order).parentsOf i) : j < i := by
  have hs := ordered_sequence hc ho
  obtain ⟨hjl, hp⟩ := (mem_parentsOf_ofDraft h hc ho hi).1 hj
  have := hs.idxOf_lt h hp
  rwa [hs.nodup.idxOf_getElem, hs.nodup.idxOf_getElem] at this

theorem lt_of_mem_childrenOf {i j : Nat} (hj : j ∈ (ofDraft d order).childrenOf i) : i < j := by
  have hs := ordered_sequence hc ho
  have hi := lt_length_of_mem_childrenOf hj
  obtain ⟨hjl, hp⟩ := (mem_childrenOf_ofDraft h hc ho hi).1 hj
  have := hs.idxOf_lt h hp
  rwa [hs.nodup.idxOf_getElem, hs.nodup.idxOf_getElem] at this

theorem parentsOf_ofDraft_eq_nil {i : Nat} (hi : i < (sequence d order).length) :
    (ofDraft d order).parentsOf i = [] ↔ (sequence d order)[i] = 0 := by
  rw [← List.length_eq_zero_iff, length_parentsOf_ofDraft hi, List.length_eq_zero_iff]
  exact h.parents_eq_nil ((ordered_sequence hc ho).mem_iff.1 (List.getElem_mem hi))

/-- The universal type is the first one, as the first type has nothing before it. -/
theorem sequence_zero (hlength : 0 < (sequence d order).length) : (sequence d order)[0] = 0 := by
  refine (parentsOf_ofDraft_eq_nil h hc ho hlength).1 ?_
  exact List.eq_nil_iff_forall_not_mem.2 fun p hp =>
    Nat.not_lt_zero p (lt_of_mem_parentsOf h hc ho hlength hp)

theorem nodup_parentsOf_ofDraft (i : Nat) : ((ofDraft d order).parentsOf i).Nodup := by
  have hs := ordered_sequence hc ho
  by_cases hi : i < (sequence d order).length
  · have heq : (ofDraft d order).parentsOf i = _ := getD_map_toArray hi
    rw [heq]
    exact nodup_renumber hs.nodup (fun t => hs.mem_iff.1)
      (fun t ht => hs.mem_iff.2 (h.parent_lt ht)) (h.parents_nodup _)
  · rw [parentsOf_ofDraft_of_le (by omega)]
    exact List.nodup_nil

theorem nodup_childrenOf_ofDraft (i : Nat) : ((ofDraft d order).childrenOf i).Nodup := by
  have hs := ordered_sequence hc ho
  by_cases hi : i < (sequence d order).length
  · have heq : (ofDraft d order).childrenOf i = _ := getD_map_toArray hi
    rw [heq]
    exact nodup_renumber hs.nodup (fun t => hs.mem_iff.1)
      (fun t ht => hs.mem_iff.2 (h.child_lt (h.mem_childrenOf.1 ht))) (h.children_nodup _)
  · rw [List.eq_nil_iff_forall_not_mem.2 fun j hj => hi (lt_length_of_mem_childrenOf hj)]
    exact List.nodup_nil

theorem below_ofDraft {i j : Nat} (hi : i < (sequence d order).length)
    (hj : j < (sequence d order).length) :
    (ofDraft d order).Below j i ↔ d.Below (sequence d order)[j] (sequence d order)[i] := by
  have hs := ordered_sequence hc ho
  constructor
  · intro hji
    have hgen : ∀ i, (ofDraft d order).Below j i → ∃ hi : i < (sequence d order).length,
        d.Below (sequence d order)[j] (sequence d order)[i] := by
      intro i hji
      induction hji with
      | refl => exact ⟨hj, ReflTransGen.refl⟩
      | tail _ hp ih =>
        obtain ⟨hk, hjk⟩ := ih
        obtain ⟨hi, hp⟩ := (mem_parentsOf_ofDraft h hc ho hk).1 hp
        exact ⟨hi, hjk.tail hp⟩
    exact (hgen i hji).2
  · intro hji
    -- every type has a number, so a way up by types is one by numbers
    have hgen : ∀ u, d.Below (sequence d order)[j] u → ∃ i, ∃ hi : i < (sequence d order).length,
        (sequence d order)[i] = u ∧ (ofDraft d order).Below j i := by
      intro u hju
      induction hju with
      | refl => exact ⟨j, hj, rfl, ReflTransGen.refl⟩
      | tail _ hp ih =>
        obtain ⟨k, hk, rfl, hjk⟩ := ih
        obtain ⟨i, hi, rfl⟩ := List.getElem_of_mem (hs.mem_iff.2 (h.parent_lt hp))
        exact ⟨i, hi, rfl, hjk.tail ((mem_parentsOf_ofDraft h hc ho hk).2 ⟨hi, hp⟩)⟩
    obtain ⟨k, hk, heq, hjk⟩ := hgen _ hji
    rwa [(List.Nodup.getElem_inj_iff hs.nodup).1 heq] at hjk

omit h in
theorem nodup_names_sequence (hnames : d.names.toList.Nodup) :
    ((sequence d order).map d.nameOf).Nodup := by
  have hs := ordered_sequence hc ho
  refine hs.nodup.map_on fun t ht u hu heq => ?_
  have htl : t < d.names.size := hs.mem_iff.1 ht
  have hul : u < d.names.size := hs.mem_iff.1 hu
  rw [Draft.nameOf, Draft.nameOf, Array.getElem?_eq_getElem htl,
    Array.getElem?_eq_getElem hul] at heq
  exact (@List.Nodup.getElem_inj_iff _ _ hnames _ htl _ hul).1 heq

omit h in
theorem size_ofDraft (hnames : d.names.toList.Nodup) :
    (ofDraft d order).size = (sequence d order).length :=
  (NameTable.size_ofList (nodup_names_sequence hc ho hnames)).trans (List.length_map _)

theorem firstLeaf_ofDraft :
    (ofDraft d order).firstLeaf = (order.filter fun t => !d.isLeaf t).length :=
  (contains_codesOf _ fun hj => lt_of_mem_childrenOf h hc ho hj).1

theorem isLeaf_ofDraft (hnames : d.names.toList.Nodup) {i : Nat}
    (hi : i < (sequence d order).length) :
    (ofDraft d order).isLeaf i = d.isLeaf (sequence d order)[i] := by
  rw [isLeaf, size_ofDraft hc ho hnames, firstLeaf_ofDraft h hc ho]
  simp only [hi, decide_true, Bool.and_true]
  simp only [sequence] at hi ⊢
  rw [List.getElem_append]
  split
  · rename_i hlt
    have := (List.mem_filter.1 (List.getElem_mem hlt)).2
    rw [Bool.not_eq_true'] at this
    rw [this]
    simpa using hlt
  · rename_i hge
    rw [List.length_append] at hi
    have := (List.mem_filter.1 (List.getElem_mem (l := order.filter d.isLeaf)
      (n := i - (order.filter fun t => !d.isLeaf t).length) (by omega))).2
    rw [this]
    simpa using hge

/-- Coded types have the numbers up to that of the first leaf type. -/
theorem lt_firstLeaf_ofDraft (hnames : d.names.toList.Nodup) {i : Nat}
    (hi : i < (sequence d order).length) :
    i < (ofDraft d order).firstLeaf ↔ d.isLeaf (sequence d order)[i] = false := by
  rw [← isLeaf_ofDraft h hc ho hnames hi, isLeaf, size_ofDraft hc ho hnames]
  simp [hi]

theorem contains_ofDraft {a : Nat} (ha : a < (ofDraft d order).firstLeaf)
    (hle : (ofDraft d order).firstLeaf ≤ (sequence d order).length) (b : Nat) :
    ((ofDraft d order).codeOf a).contains b = true ↔
      b < (ofDraft d order).firstLeaf ∧ (ofDraft d order).Below b a := by
  have hfirst := firstLeaf_ofDraft h hc ho
  have hcodes := (contains_codesOf (order.filter fun t => !d.isLeaf t).length
    fun hj => lt_of_mem_childrenOf h hc ho hj).2 (hfirst ▸ ha) b
  refine Iff.trans hcodes ?_
  rw [← hfirst]
  -- children tell of the same links, and what is above a coded type is coded
  constructor
  · intro hba
    refine ⟨?_, ?_⟩
    · rcases ReflTransGen.cases_head hba with rfl | ⟨c, hbc, -⟩
      · exact ha
      · exact hbc.2
    · refine ReflTransGen.mono (fun j i hji => ?_) _ _ hba
      have hil := lt_length_of_mem_childrenOf hji.1
      obtain ⟨hjl, hp⟩ := (mem_childrenOf_ofDraft h hc ho hil).1 hji.1
      exact (mem_parentsOf_ofDraft h hc ho hjl).2 ⟨hil, hp⟩
  · rintro ⟨hb, hba⟩
    have hgen : ∀ i, (ofDraft d order).Below b i → i < (ofDraft d order).firstLeaf ∧
        ReflTransGen (fun j i => j ∈ (ofDraft d order).childrenOf i ∧
          j < (ofDraft d order).firstLeaf) b i := by
      intro i hbi
      induction hbi with
      | refl => exact ⟨hb, ReflTransGen.refl⟩
      | @tail k p _ hp ih =>
        obtain ⟨hk, hbk⟩ := ih
        have hkl : k < (sequence d order).length := by omega
        have hlt := lt_of_mem_parentsOf h hc ho hkl hp
        obtain ⟨hpl, hpar⟩ := (mem_parentsOf_ofDraft h hc ho hkl).1 hp
        refine ⟨by omega, hbk.tail ⟨?_, hk⟩⟩
        exact (mem_childrenOf_ofDraft h hc ho hpl).2 ⟨hkl, hpar⟩
    exact (hgen a hba).2

/-- Coded types have their meets among the coded types. -/
theorem meet_ofDraft (hnames : d.names.toList.Nodup) (hmeet : d.MeetClosed)
    (hle : (ofDraft d order).firstLeaf ≤ (sequence d order).length) {s t : Nat}
    (hs : s < (ofDraft d order).firstLeaf) (ht : t < (ofDraft d order).firstLeaf)
    (hcommon : ∃ u < (ofDraft d order).firstLeaf,
      (ofDraft d order).Below u s ∧ (ofDraft d order).Below u t) :
    ∃ m < (ofDraft d order).firstLeaf, (ofDraft d order).Below m s ∧ (ofDraft d order).Below m t ∧
      ∀ u < (ofDraft d order).firstLeaf, (ofDraft d order).Below u s →
        (ofDraft d order).Below u t → (ofDraft d order).Below u m := by
  have hmem : ∀ {k} (hk : k < (sequence d order).length), (sequence d order)[k] < d.size :=
    fun hk => (ordered_sequence hc ho).mem_iff.1 (List.getElem_mem hk)
  have hcoded : ∀ {k} (hk : k < (sequence d order).length),
      k < (ofDraft d order).firstLeaf ↔ d.isLeaf (sequence d order)[k] = false :=
    lt_firstLeaf_ofDraft h hc ho hnames
  obtain ⟨u, hu, hus, hut⟩ := hcommon
  have hsl : s < (sequence d order).length := by omega
  have htl : t < (sequence d order).length := by omega
  have hul : u < (sequence d order).length := by omega
  obtain ⟨m, hm, hml, hms, hmt, hgreatest⟩ := hmeet (hmem hsl) (hmem htl) ((hcoded hsl).1 hs)
    ((hcoded htl).1 ht) ⟨_, hmem hul, (hcoded hul).1 hu, (below_ofDraft h hc ho hsl hul).1 hus,
      (below_ofDraft h hc ho htl hul).1 hut⟩
  -- the meet has a number, too
  obtain ⟨k, hk, rfl⟩ := List.getElem_of_mem ((ordered_sequence hc ho).mem_iff.2 hm)
  refine ⟨k, (hcoded hk).2 hml, (below_ofDraft h hc ho hsl hk).2 hms,
    (below_ofDraft h hc ho htl hk).2 hmt, fun v hv hvs hvt => ?_⟩
  have hvl : v < (sequence d order).length := by omega
  exact (below_ofDraft h hc ho hk hvl).2 (hgreatest _ (hmem hvl) ((hcoded hvl).1 hv)
    ((below_ofDraft h hc ho hsl hvl).1 hvs) ((below_ofDraft h hc ho htl hvl).1 hvt))

end Renumbering

/-! ## The finished hierarchy -/

theorem sound_ofDraft {d : Draft} {order : List Nat} (h : d.Linked) (hc : d.Classified)
    (ho : d.Ordered order) (hnames : d.names.toList.Nodup) (hpos : 0 < d.size)
    (hmeet : d.MeetClosed) : (ofDraft d order).Sound := by
  have hs := ordered_sequence hc ho
  have hlen := length_sequence hc ho
  have hsize := size_ofDraft hc ho hnames
  have hle : (ofDraft d order).firstLeaf ≤ (sequence d order).length := by
    rw [firstLeaf_ofDraft h hc ho, sequence, List.length_append]
    omega
  have hnil : ∀ {i} (hi : i < (sequence d order).length),
      (ofDraft d order).parentsOf i = [] ↔ (sequence d order)[i] = 0 :=
    parentsOf_ofDraft_eq_nil h hc ho
  have hlt : ∀ {t p}, p ∈ (ofDraft d order).parentsOf t →
      p < t ∧ t < (sequence d order).length := by
    intro t p hp
    have ht : t < (sequence d order).length := by
      by_contra hge
      rw [parentsOf_ofDraft_of_le (by omega)] at hp
      cases hp
    exact ⟨lt_of_mem_parentsOf h hc ho ht hp, ht⟩
  have hlength : 0 < (sequence d order).length := by omega
  have hfirst : (sequence d order)[0] = 0 := sequence_zero h hc ho hlength
  refine ⟨?_, hsize ▸ hle, fun hp => hsize ▸ hlt hp, ?_, ?_, ?_, ?_⟩
  · -- the universal type has no parent, so it is no leaf type
    refine (lt_firstLeaf_ofDraft h hc ho hnames (by omega)).2 ?_
    rw [hfirst]
    by_contra hzl
    obtain ⟨p, hp⟩ := hc.leaf_parent (by simpa using hzl)
    rw [(h.parents_eq_nil hpos).2 rfl] at hp
    cases hp
  · intro t ht
    rw [hsize] at ht
    have hinj := @List.Nodup.getElem_inj_iff _ _ hs.nodup _ ht _ (show 0 < _ by omega)
    rw [hnil ht, ← hinj, hfirst]
  · intro t ht
    have htl : t < (sequence d order).length := by
      simp only [isLeaf, Bool.and_eq_true, decide_eq_true_eq] at ht
      omega
    rw [isLeaf_ofDraft h hc ho hnames htl] at ht
    obtain ⟨p, hp⟩ := hc.leaf_parent ht
    refine List.length_eq_one_iff.1 ?_
    rw [length_parentsOf_ofDraft htl, hp]
    rfl
  · exact fun ha b => contains_ofDraft h hc ho ha hle b
  · exact fun hs ht => meet_ofDraft h hc ho hnames hmeet hle hs ht

/-- A hierarchy is built in five stages, each of which may fail but the last. -/
theorem ofDeclarations_eq_ok_iff {d : Declarations} {h : Hierarchy} : ofDeclarations d = .ok h ↔
    ∃ draft order c final, Draft.ofDeclarations d = .ok draft ∧ draft.ordering = .ok order ∧
      Closing.rounds (Closing.start (draft.markLeaves order) order).codes.size Closing.roundLimit
        (Closing.start (draft.markLeaves order) order) = .ok c ∧
      c.draft.ordering = .ok final ∧ h = ofDraft c.draft final := by
  unfold ofDeclarations
  constructor
  · intro hh
    cases hdraft : Draft.ofDeclarations d with
    | error e => simp [hdraft, bind, Except.bind] at hh
    | ok draft =>
      cases horder : draft.ordering with
      | error e => simp [hdraft, horder, bind, Except.bind] at hh
      | ok order =>
        simp only [hdraft, horder, bind, Except.bind, Draft.close] at hh
        cases hrounds : Closing.rounds (Closing.start (draft.markLeaves order) order).codes.size
            Closing.roundLimit (Closing.start (draft.markLeaves order) order) with
        | error e => simp [hrounds, Except.map] at hh
        | ok c =>
          cases hfinal : c.draft.ordering with
          | error e => simp [hrounds, hfinal, Except.map] at hh
          | ok final =>
            simp only [hrounds, hfinal, Except.map, pure, Except.pure, Except.ok.injEq] at hh
            exact ⟨draft, order, c, final, rfl, horder, hrounds, hfinal, hh.symm⟩
  · rintro ⟨draft, order, c, final, hdraft, horder, hrounds, hfinal, rfl⟩
    simp only [hdraft, horder, bind, Except.bind, Draft.close, hrounds, Except.map, hfinal, pure,
      Except.pure]

/-- A hierarchy that is built from accepted declarations is sound. -/
theorem sound_of_declarations {d : Declarations} (hd : d.Sound) {h : Hierarchy}
    (hh : ofDeclarations d = .ok h) : h.Sound := by
  obtain ⟨draft, order, c, final, hdraft, horder, hrounds, hfinal, rfl⟩ :=
    ofDeclarations_eq_ok_iff.1 hh
  obtain ⟨hstart, hpos⟩ := Closing.start_of_declarations hd hdraft horder
  obtain ⟨hsound, hclosed⟩ := hstart.rounds _ hpos hrounds
  have hbit : 0 < c.codes.size := Nat.lt_of_lt_of_le hpos hsound.base_le
  exact sound_ofDraft hsound.linked hsound.classified
    (Draft.ordered_of_ordering hsound.linked hfinal) hsound.names_nodup
    (Nat.lt_of_le_of_lt (Nat.zero_le _) (hsound.typeAt_lt hbit))
    (Draft.meetClosed_of_closed hsound hclosed)

end Hierarchy

end FeatureLogic
