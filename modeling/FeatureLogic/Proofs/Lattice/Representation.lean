import Mathlib.Order.Bounds.Basic
import FeatureLogic.Proofs.Lattice.Leaves

/-!
What the numbers of a built lattice stand for (`Lattice.Represents`): the universal type comes
first and parents before children, the leaf types of the declarations come last, codes are sets of
types below, and depths are lengths of longest chains of parents.
-/

open Relation

namespace FeatureLogic

namespace Hierarchy

/-! ## Depths -/

theorem isGreatest_foldl_max (list : List Nat) (least : Nat) :
    IsGreatest {n | n = least ∨ n ∈ list} (list.foldl max least) := by
  induction list generalizing least with
  | nil => exact ⟨.inl rfl, fun n hn => hn.elim Nat.le_of_eq nofun⟩
  | cons x rest ih =>
    obtain ⟨hmem, hupper⟩ := ih (max least x)
    have hmax := hupper (.inl rfl)
    refine ⟨?_, fun n hn => ?_⟩
    · rcases hmem with heq | hrest
      · rw [Set.mem_ofPred_eq, List.foldl_cons, heq, List.mem_cons]
        exact (max_choice least x).imp_right .inl
      · exact .inr (List.mem_cons_of_mem _ hrest)
    · rcases hn with rfl | hn
      · exact Nat.le_trans (Nat.le_max_left _ _) hmax
      · rcases List.mem_cons.1 hn with rfl | hn
        · exact Nat.le_trans (Nat.le_max_right _ _) hmax
        · exact hupper (.inr hn)

/-- The depth of a type is one more than the greatest depth of its parents, which are worked out
before it. -/
theorem depthsOf_eq {parents : Array (List Nat)}
    (hlt : ∀ {i p : Nat}, p ∈ parents[i]?.getD [] → p < i) :
    (depthsOf parents).size = parents.size ∧ ∀ i < parents.size,
      (depthsOf parents)[i]?.getD 0 = ((parents[i]?.getD []).map fun p =>
        (depthsOf parents)[p]?.getD 0 + 1).foldl max 0 := by
  refine Array.foldl_induction (fun done (depths : Array Nat) => depths.size = done ∧ ∀ i < done,
    depths[i]?.getD 0 = ((parents[i]?.getD []).map fun p =>
      depths[p]?.getD 0 + 1).foldl max 0) ⟨rfl, fun i hi => absurd hi (Nat.not_lt_zero i)⟩ ?_
  rintro ⟨k, hk⟩ depths ⟨hsize, hdone⟩
  refine ⟨by simp [hsize], fun i hi => ?_⟩
  -- the new depth is no part of the depths of parents
  have hparents : ∀ {x}, i ≤ k → ((parents[i]?.getD []).map fun p =>
      (depths.push x)[p]?.getD 0 + 1) =
      (parents[i]?.getD []).map fun p => depths[p]?.getD 0 + 1 := fun hik =>
    List.map_congr_left fun p hp => by
      have hpk := hlt hp
      rw [Array.getElem?_push, if_neg (by omega)]
  rcases Nat.lt_succ_iff_lt_or_eq.1 hi with hlast | hlast
  · rw [hparents (Nat.le_of_lt hlast), Array.getElem?_push, if_neg (by omega), hdone i hlast]
  · rw [hparents (Nat.le_of_eq hlast), Array.getElem?_push, if_pos (by omega), hlast]
    simp [hk]

namespace Stages

variable {types : List (String × List String)} {d : Declarations} {draft : Draft}
  {order : List Nat} {c : Closing} {final : List Nat} (hs : Stages d draft order c final)
include hs

/-! ## Names, links and leaf types -/

theorem lt_firstLeaf_iff {i : Nat} (hi : i < (sequence c.draft final).length) :
    i < (ofDraft c.draft final).firstLeaf ↔
      c.draft.isLeaf (sequence c.draft final)[i] = false :=
  lt_firstLeaf_ofDraft hs.sound.linked hs.sound.classified hs.final hs.sound.names_nodup hi

theorem name_eq {i : Nat} (hi : i < (sequence c.draft final).length) :
    (ofDraft c.draft final).names.name? i = some (c.draft.nameOf (sequence c.draft final)[i]) :=
  name_ofDraft hs.sound.classified hs.final hs.sound.names_nodup hi

theorem mem_parentsOf_iff_mem_childrenOf {i j : Nat} :
    j ∈ (ofDraft c.draft final).parentsOf i ↔ i ∈ (ofDraft c.draft final).childrenOf j := by
  obtain ⟨hl, hc, ho⟩ := And.intro hs.sound.linked (And.intro hs.sound.classified hs.final)
  constructor
  · intro hj
    have hi : i < (sequence c.draft final).length := by
      by_contra hge
      rw [parentsOf_ofDraft_of_le (by omega)] at hj
      cases hj
    obtain ⟨hjl, hp⟩ := (mem_parentsOf_ofDraft hl hc ho hi).1 hj
    exact (mem_childrenOf_ofDraft hl hc ho hjl).2 ⟨hi, hp⟩
  · intro hi
    have hj := lt_length_of_mem_childrenOf hi
    obtain ⟨hil, hp⟩ := (mem_childrenOf_ofDraft hl hc ho hj).1 hi
    exact (mem_parentsOf_ofDraft hl hc ho hil).2 ⟨hj, hp⟩

/-- The universal type has number 0 and keeps its name. -/
theorem name_zero (hd : Declarations.initial.declareAll types = .ok d) :
    (ofDraft c.draft final).names.name? 0 = some topName := by
  have hlist : d.names.names[0]? = some topName := by
    rw [← Array.getElem?_toList]
    exact congrArg (·[0]?) (Declarations.toList_names hd)
  have hpos : 0 < draft.size := by
    rw [Draft.size, hs.names_eq]
    exact (Array.getElem?_eq_some_iff.1 hlist).1
  have hlength : 0 < (sequence c.draft final).length := by
    rw [length_sequence hs.sound.classified hs.final]
    exact Nat.lt_of_lt_of_le hpos hs.draft_extends.size_le
  rw [hs.name_eq hlength, sequence_zero hs.sound.linked hs.sound.classified hs.final hlength,
    hs.draft_extends.nameOf_eq hpos, Draft.nameOf, hs.names_eq, hlist]
  rfl

/-- The numbers from that of the first leaf type on are those of the declared leaf types. -/
theorem leaf_iff_declared (hd : Declarations.initial.declareAll types = .ok d) {name : String} :
    Declarations.Leaf types name ↔ ∃ i, (ofDraft c.draft final).isLeaf i = true ∧
      (ofDraft c.draft final).names.name? i = some name := by
  have hleaf : ∀ {i} (hi : i < (sequence c.draft final).length),
      (ofDraft c.draft final).isLeaf i = c.draft.isLeaf (sequence c.draft final)[i] :=
    isLeaf_ofDraft hs.sound.linked hs.sound.classified hs.final hs.sound.names_nodup
  constructor
  · intro hdeclared
    obtain ⟨t, ht, -, i, hi, hit, hname⟩ := hs.placed hd hdeclared.declared
    refine ⟨i, ?_, NameTable.index?_eq_some_iff.1 hname⟩
    rw [hleaf hi, hit]
    exact (hs.isLeaf_iff_declared hd ht).2 hdeclared
  · rintro ⟨i, hi, hname⟩
    have hil : i < (sequence c.draft final).length := hs.size_eq ▸ (isLeaf_iff.1 hi).2
    rw [hleaf hil] at hi
    -- a leaf type was marked before the closure, so it is declared
    have hlt : (sequence c.draft final)[i] < draft.size := by
      have hmark := hs.isLeaf_eq (sequence c.draft final)[i]
      rw [hi, Draft.isLeaf] at hmark
      by_contra hge
      rw [Array.getElem?_eq_none (by
        rw [(draft.markLeaves_same order).2.2.2, hs.leaf_size]
        omega)] at hmark
      cases hmark
    rw [hs.name_eq hil, hs.draft_extends.nameOf_eq hlt, Draft.nameOf, hs.names_eq] at hname
    have hdname : d.names.name? (sequence c.draft final)[i] = some name := by
      rw [Draft.size, hs.names_eq] at hlt
      rw [Array.getElem?_eq_getElem hlt] at hname
      exact (Array.getElem?_eq_getElem hlt).trans hname
    exact (hs.isLeaf_iff_declared hd hdname).1 hi

/-- The depth of a type is one more than the greatest depth of its parents. -/
theorem depths_eq {i : Nat} (hi : i < (ofDraft c.draft final).size) (other : Nat) :
    (ofDraft c.draft final).depths[i]?.getD other =
      (((ofDraft c.draft final).parentsOf i).map fun p =>
        (ofDraft c.draft final).depths[p]?.getD other + 1).foldl max 0 := by
  have hlt : ∀ {j p : Nat}, p ∈ (ofDraft c.draft final).parents[j]?.getD [] → p < j := by
    intro j p hp
    by_cases hj : j < (sequence c.draft final).length
    · exact lt_of_mem_parentsOf hs.sound.linked hs.sound.classified hs.final hj hp
    · rw [show (ofDraft c.draft final).parents[j]?.getD [] = [] from
        parentsOf_ofDraft_of_le (by omega)] at hp
      cases hp
  obtain ⟨hsize, heq⟩ := depthsOf_eq hlt
  have hparents : (ofDraft c.draft final).parents.size = (ofDraft c.draft final).size := by
    rw [hs.size_eq]
    exact List.length_map _
  have hdepth : ∀ {j}, j < (ofDraft c.draft final).size →
      (ofDraft c.draft final).depths[j]?.getD other = (ofDraft c.draft final).depths[j]?.getD 0 := by
    intro j hj
    have hjl : j < (ofDraft c.draft final).depths.size :=
      Nat.lt_of_lt_of_eq (hparents.symm ▸ hj) hsize.symm
    rw [Array.getElem?_eq_getElem hjl, Option.getD_some, Option.getD_some]
  rw [hdepth hi]
  refine (heq i (hparents.symm ▸ hi)).trans (congrArg (List.foldl max 0) ?_)
  exact List.map_congr_left fun p hp => by rw [hdepth (Nat.lt_trans (hlt hp) hi)]; rfl

end Stages

end Hierarchy

namespace Lattice

/-- A chain of so many links to parents leads from a type up to the universal type. -/
inductive PathToTop (l : Lattice) : Nat → TypeId → Prop
  | top : PathToTop l 0 .top
  | parent {n : Nat} {s t : TypeId} (hs : s ∈ l.parents t) (h : PathToTop l n s) :
      PathToTop l (n + 1) t

/-- What the numbers of a lattice stand for. -/
structure Represents (types : List (String × List String)) (l : Lattice) : Prop where
  /-- Every type has a name of its own. -/
  named : ∀ {t}, l.isGrammarType t = true → ∃ name, l.typeName? t = some name ∧
    l.typeId? name = some t
  name_top : l.typeName? .top = some topName
  top_proper : l.isProper .top = true
  parents_eq_nil : ∀ {t}, l.isGrammarType t = true → (l.parents t = [] ↔ t = .top)
  parent_lt : ∀ {t p}, p ∈ l.parents t → ∃ i j, p = .of i ∧ t = .of j ∧ i < j ∧ j < l.typeCount
  /-- The numbers from that of the first leaf type on are those of the declared leaf types. -/
  leaf_iff : ∀ {name}, Declarations.Leaf types name ↔ ∃ t, l.hierarchy.firstLeaf ≤ t ∧
    t < l.typeCount ∧ l.typeName? (.of t) = some name
  leaf_parent : ∀ {t}, l.isLeaf t = true → ∃ p, l.parents t = [p]
  leaf_of_below : ∀ {s t}, l.isLeaf t = true → l.Below s t → l.isLeaf s = true
  mem_parents_iff : ∀ {s t}, s ∈ l.parents t ↔ t ∈ l.children s
  parents_nodup : ∀ t, (l.parents t).Nodup
  children_nodup : ∀ t, (l.children t).Nodup
  /-- A code is the set of the coded types below its type. -/
  code_iff : ∀ {t}, l.isProper t = true → ∃ code, l.code? t = some code ∧
    ∀ b, code.contains b = true ↔ l.isProper (.of b) = true ∧ l.Below (.of b) t
  code_inj : ∀ {s t x y}, l.code? s = some x → l.code? t = some y → x.sameBits y = true → s = t
  topDistance_isGreatest : ∀ {t}, l.isGrammarType t = true →
    IsGreatest {n | l.PathToTop n t} (l.topDistance t)

section Sound

variable {l : Lattice} (hs : l.hierarchy.Sound)
include hs

theorem below_of_iff {s t : Nat} (hst : s < l.typeCount) :
    l.Below (.of s) (.of t) ↔ l.hierarchy.Below s t := by
  rw [below_iff_le hs TypeId.noConfusion, hs.le_of_iff hst]

theorem leaf_of_below {s t : TypeId} (ht : l.isLeaf t = true) (hst : l.Below s t) :
    l.isLeaf s = true := by
  have hle := le_of_below hs hst
  cases t with
  | bottom => cases ht
  | of t =>
    have htl := Hierarchy.isLeaf_iff.1 ht
    have hpos := hs.firstLeaf_pos
    cases s with
    | bottom =>
      rcases ReflTransGen.cases_head hst with heq | ⟨u, hup, -⟩
      · cases heq
      · rcases hup with hp | ⟨hp, -⟩ <;> cases hp
    | of s =>
      have hbelow : l.hierarchy.Below s t := hle.resolve_left (by omega)
      have := hs.le_of_below hbelow
      exact Hierarchy.isLeaf_iff.2 ⟨by omega, hs.lt_size_of_below hbelow htl.2⟩

theorem code_iff {t : TypeId} (ht : l.isProper t = true) : ∃ code, l.code? t = some code ∧
    ∀ b, code.contains b = true ↔ l.isProper (.of b) = true ∧ l.Below (.of b) t := by
  cases t with
  | bottom => cases ht
  | of t =>
    have htl : t < l.hierarchy.codes.size := of_decide_eq_true ht
    have hcode : l.hierarchy.codeOf t = l.hierarchy.codes[t] := by
      rw [Hierarchy.codeOf, Array.getElem?_eq_getElem htl, Option.getD_some]
    refine ⟨_, Array.getElem?_eq_getElem htl, fun b => ?_⟩
    rw [← hcode, hs.contains_iff htl, isProper, decide_eq_true_eq]
    refine and_congr_right fun hb => ?_
    exact (below_of_iff hs (Nat.lt_of_lt_of_le hb hs.firstLeaf_le)).symm

theorem code_inj {s t : TypeId} {x y : BitSet} (hx : l.code? s = some x) (hy : l.code? t = some y)
    (hsame : x.sameBits y = true) : s = t := by
  cases s with
  | bottom => cases hx
  | of s =>
    cases t with
    | bottom => cases hy
    | of t =>
      obtain ⟨hsl, -⟩ := Array.getElem?_eq_some_iff.1 hx
      obtain ⟨htl, -⟩ := Array.getElem?_eq_some_iff.1 hy
      have hxs : l.hierarchy.codeOf s = x := congrArg (·.getD .empty) hx
      have hyt : l.hierarchy.codeOf t = y := congrArg (·.getD .empty) hy
      have hbits := BitSet.sameBits_iff.1 hsame
      rw [← hxs, ← hyt] at hbits
      have hst := (hs.contains_iff htl s).1
        ((hbits s).1 ((hs.contains_iff hsl s).2 ⟨hsl, ReflTransGen.refl⟩))
      have hts := (hs.contains_iff hsl t).1
        ((hbits t).2 ((hs.contains_iff htl t).2 ⟨htl, ReflTransGen.refl⟩))
      rw [hs.below_antisymm hst.2 hts.2]

/-- Depths that are one more than the greatest depth of the parents are lengths of longest
chains. -/
theorem isGreatest_topDistance (hdepths : ∀ {i}, i < l.typeCount → l.topDistance (.of i) =
      ((l.hierarchy.parentsOf i).map fun p => l.topDistance (.of p) + 1).foldl max 0)
    {i : Nat} (hi : i < l.typeCount) :
    IsGreatest {n | l.PathToTop n (.of i)} (l.topDistance (.of i)) := by
  induction i using Nat.strongRecOn with
  | _ i ih =>
    -- the depth is one more than that of the deepest parent, or zero
    obtain ⟨hmem, hupper⟩ := Hierarchy.isGreatest_foldl_max
      ((l.hierarchy.parentsOf i).map fun p => l.topDistance (.of p) + 1) 0
    rw [← hdepths hi] at hmem hupper
    refine ⟨?_, fun n hn => ?_⟩
    · by_cases hpar : l.hierarchy.parentsOf i = []
      · -- without parents this is the universal type
        have hzero : l.topDistance (.of i) = 0 := by rw [hdepths hi, hpar]; rfl
        rw [hzero, (hs.parents_eq_nil hi).1 hpar]
        exact .top
      · obtain ⟨q, hq⟩ := List.exists_mem_of_ne_nil _ hpar
        have hqd := hupper (.inr (List.mem_map_of_mem hq))
        rcases hmem with h0 | hmem
        · exact absurd (h0 ▸ hqd) (Nat.not_succ_le_zero _)
        · obtain ⟨p, hp, hpd⟩ := List.mem_map.1 hmem
          have hplt := (hs.parent_lt hp).1
          rw [← hpd]
          exact .parent (List.mem_map_of_mem hp) (ih p hplt (Nat.lt_trans hplt hi)).1
    · cases hn with
      | top => exact Nat.zero_le _
      | @parent m s _ hs' hpath =>
        obtain ⟨p, hp, rfl⟩ := List.mem_map.1 hs'
        have hplt := (hs.parent_lt hp).1
        have hle := (ih p hplt (Nat.lt_trans hplt hi)).2 hpath
        exact Nat.le_trans (Nat.succ_le_succ hle) (hupper (.inr (List.mem_map_of_mem hp)))

end Sound

/-- The stages in which a lattice was built that may have answered questions since. -/
theorem exists_stages {types : List (String × List String)} {d : Declarations} {l₀ l : Lattice}
    (hd : Declarations.initial.declareAll types = .ok d) (hbuilt : ofDeclarations d = .ok l₀)
    (hgrown : Grown l₀ l) : ∃ draft order c final, Hierarchy.Stages d draft order c final ∧
      l.hierarchy = Hierarchy.ofDraft c.draft final := by
  have hdecl := Declarations.sound_of_declareAll Declarations.sound_initial hd
  have hh : Hierarchy.ofDeclarations d = .ok l.hierarchy := by
    rw [hgrown.hierarchy_eq]
    exact (eq_of_declarations hbuilt).1
  exact Hierarchy.exists_stages hdecl hh

/-- Every lattice that is built from declarations represents them. -/
theorem represents_of_declarations {types : List (String × List String)} {d : Declarations}
    {l : Lattice} (hd : Declarations.initial.declareAll types = .ok d)
    (hl : ofDeclarations d = .ok l) : l.Represents types := by
  have hsound := (sound_of_declarations hd hl).hierarchy
  obtain ⟨draft, order, c, final, hs, heq⟩ := exists_stages hd hl (.refl l)
  have hpos : 0 < l.typeCount := Nat.lt_of_lt_of_le hsound.firstLeaf_pos hsound.firstLeaf_le
  have hof : Function.Injective TypeId.of := fun i j hij => TypeId.of.inj hij
  exact {
    named := by
      intro t ht
      cases t with
      | bottom => cases ht
      | of t =>
        have htl : t < l.typeCount := of_decide_eq_true ht
        obtain ⟨name, hname⟩ : ∃ name, l.hierarchy.names.name? t = some name :=
          ⟨_, Array.getElem?_eq_getElem htl⟩
        refine ⟨name, by rw [typeName?, if_pos htl, hname], ?_⟩
        rw [typeId?, NameTable.index?_eq_some_iff.2 hname]
    name_top := by
      rw [typeName?, if_pos hpos, heq]
      exact hs.name_zero hd
    top_proper := decide_eq_true hsound.firstLeaf_pos
    parents_eq_nil := by
      intro t ht
      cases t with
      | bottom => cases ht
      | of t =>
        rw [parents, List.map_eq_nil_iff, hsound.parents_eq_nil (of_decide_eq_true ht)]
        exact hof.eq_iff.symm
    parent_lt := by
      intro t p hp
      cases t with
      | bottom => cases hp
      | of t =>
        obtain ⟨i, hi, rfl⟩ := List.mem_map.1 hp
        exact ⟨i, t, rfl, rfl, hsound.parent_lt hi⟩
    leaf_iff := by
      intro name
      rw [hs.leaf_iff_declared hd, ← heq]
      refine exists_congr fun t => ?_
      rw [Hierarchy.isLeaf_iff, and_assoc]
      refine and_congr_right fun _ => and_congr_right fun ht => ?_
      rw [typeName?, if_pos (show t < l.typeCount from ht)]
    leaf_parent := by
      intro t ht
      cases t with
      | bottom => cases ht
      | of t =>
        obtain ⟨p, hp⟩ := hsound.leaf_parent ht
        exact ⟨.of p, by rw [parents, hp]; rfl⟩
    leaf_of_below := leaf_of_below hsound
    mem_parents_iff := by
      intro s t
      cases s <;> cases t <;> simp only [parents, children, List.not_mem_nil, List.mem_map,
        hof.eq_iff, exists_eq_right, reduceCtorEq, and_false, exists_false]
      rw [heq]
      exact hs.mem_parentsOf_iff_mem_childrenOf
    parents_nodup := by
      intro t
      cases t with
      | bottom => exact List.nodup_nil
      | of t =>
        rw [parents, heq]
        exact (Hierarchy.nodup_parentsOf_ofDraft hs.sound.linked hs.sound.classified hs.final t).map
          hof
    children_nodup := by
      intro t
      cases t with
      | bottom => exact List.nodup_nil
      | of t =>
        rw [children, heq]
        exact (Hierarchy.nodup_childrenOf_ofDraft hs.sound.linked hs.sound.classified hs.final t).map
          hof
    code_iff := code_iff hsound
    code_inj := code_inj hsound
    topDistance_isGreatest := by
      intro t ht
      cases t with
      | bottom => cases ht
      | of t =>
        refine isGreatest_topDistance hsound (fun {i} hi => ?_) (of_decide_eq_true ht)
        simp only [topDistance, heq]
        exact hs.depths_eq (heq ▸ hi) 1 }

/-- Two types that share two subtypes, with the type that is put between them. -/
theorem represents_of_declarations_diamond : ∃ (d : Declarations) (l : Lattice),
    Declarations.initial.declareAll
      [("a", []), ("b", []), ("c", ["a", "b"]), ("d", ["a", "b"])] = .ok d ∧
    ofDeclarations d = .ok l ∧
    l.Represents [("a", []), ("b", []), ("c", ["a", "b"]), ("d", ["a", "b"])] := by
  obtain ⟨d, l, hd, hl, -⟩ := built_diamond
  exact ⟨d, l, hd, hl, represents_of_declarations hd hl⟩

end Lattice

end FeatureLogic
