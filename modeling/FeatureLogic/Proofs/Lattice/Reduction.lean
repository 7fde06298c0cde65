import FeatureLogic.Proofs.Lattice.Representation

/-!
Immediate supertypes. Declarations that name no ancestor of a parent for another parent
(`Declarations.Irredundant`) make a draft in which no link can be left out (`Draft.Reduced`). An
insertion puts its type between least and greatest types, so it keeps the draft reduced, and parents
in the finished lattice are just the types immediately above (`Lattice.mem_parents_iff_covers`).
-/

open Relation

namespace FeatureLogic

/-- No parent of a type is an ancestor of another of its parents. -/
def Declarations.Irredundant (types : List (String × List String)) : Prop :=
  ∀ child p q, NamesParent types child p → NamesParent types child q → p ≠ q →
    ¬ TransGen (NamesParent types) q p

namespace Draft

/-! ## Reduced drafts -/

/-- Nothing is between a type and its parent. -/
def Reduced (d : Draft) : Prop :=
  ∀ t p, p ∈ d.parentsOf t → ∀ x, d.Below t x → d.Below x p → x = t ∨ x = p

/-- No two of the types are below one another. -/
def Antichain (d : Draft) (list : List Nat) : Prop :=
  ∀ s ∈ list, ∀ t ∈ list, d.Below s t → s = t

theorem Reduced.insertBetween {d : Draft} {name : String} {parents children : List Nat}
    (hd : d.Reduced) (h : d.Linked) (hi : d.Insertable parents children)
    (hanti : ∀ {t u}, t < d.size → d.Below t u → d.Below u t → t = u)
    (hparents : d.Antichain parents) (hchildren : d.Antichain children) :
    (Closing.insertBetween d name parents children).Reduced := by
  intro t p hp x htx hxp
  have hsize : (Closing.insertBetween d name parents children).size = d.size + 1 :=
    size_insertBetween
  have htl := (h.insertBetween hi).child_lt hp
  have hxl := below_lt (h.insertBetween hi) htx htl
  rw [hsize] at htl hxl
  rcases (mem_parentsOf_insertBetween h hi).1 hp with ⟨rfl, hnew⟩ | ⟨ht, rfl⟩ | ⟨hold, hkept⟩
  · -- above the new type comes one of its parents first
    rcases Nat.lt_succ_iff_lt_or_eq.1 hxl with hx | hx
    · obtain ⟨q, hq, hqx⟩ := (new_below_insertBetween h hi hx).1 htx
      have hxp := (below_insertBetween h hi hx (hi.parent_lt p hnew)).1 hxp
      obtain rfl := hparents q hq p hnew (hqx.trans hxp)
      exact .inr (hanti hx hxp hqx)
    · exact .inl hx
  · -- and below it one of its children
    rcases Nat.lt_succ_iff_lt_or_eq.1 hxl with hx | hx
    · obtain ⟨c, hc, hxc⟩ := (below_new_insertBetween h hi hx).1 hxp
      have htx := (below_insertBetween h hi (hi.child_lt t ht) hx).1 htx
      obtain rfl := hchildren t ht c hc (htx.trans hxc)
      exact .inl (hanti hx hxc htx)
    · exact .inr hx
  · have htl := h.child_lt hold
    have hpl := h.parent_lt hold
    rcases Nat.lt_succ_iff_lt_or_eq.1 hxl with hx | rfl
    · exact hd t p hold x ((below_insertBetween h hi htl hx).1 htx)
        ((below_insertBetween h hi hx hpl).1 hxp)
    · -- the new type is between the ends of an old link only where that link was cut
      obtain ⟨c, hc, htc⟩ := (below_new_insertBetween h hi htl).1 htx
      obtain ⟨q, hq, hqp⟩ := (new_below_insertBetween h hi hpl).1 hxp
      have hcq := hi.below c hc q hq
      rcases hd t p hold c htc (hcq.trans hqp) with rfl | rfl
      · rcases hd c p hold q hcq hqp with rfl | rfl
        · exact absurd hq (hi.apart _ hc)
        · exact absurd ⟨hc, hq⟩ hkept
      · exact absurd (hanti hpl hcq hqp ▸ hq) (hi.apart _ hc)

/-- The draft of irredundant declarations is reduced. -/
theorem reduced_of_declarations {types : List (String × List String)} {d : Declarations}
    {draft : Draft} {order : List Nat} (hd : Declarations.initial.declareAll types = .ok d)
    (hdraft : ofDeclarations d = .ok draft) (ho : draft.Ordered order)
    (hirredundant : Declarations.Irredundant types) : draft.Reduced := by
  have hdecl := Declarations.sound_of_declareAll Declarations.sound_initial hd
  obtain ⟨hlinked, -⟩ := linked_of_declarations hdecl hdraft
  intro t p hp x htx hxp
  rcases ReflTransGen.cases_head htx with rfl | ⟨q, hq, hqx⟩
  · exact .inl rfl
  · right
    by_cases hqp : q = p
    · subst hqp
      exact ho.antisymm hlinked hxp hqx
    · -- the way up through `x` would make `p` an ancestor of the parent `q`
      obtain ⟨child, hchild⟩ := exists_name_of_lt hd hdraft (hlinked.child_lt hp)
      obtain ⟨upper, hupper⟩ := exists_name_of_lt hd hdraft (hlinked.parent_lt hp)
      obtain ⟨lower, hlower⟩ := exists_name_of_lt hd hdraft (hlinked.parent_lt hq)
      have hne : upper ≠ lower := by
        rintro rfl
        rw [← NameTable.index?_eq_some_iff] at hupper hlower
        exact hqp (Option.some.inj (hlower.symm.trans hupper))
      have hway := (below_iff_declared hd hdraft hlower hupper).1 (hqx.trans hxp)
      rcases reflTransGen_iff_eq_or_transGen.1 hway with heq | hway
      · exact absurd heq hne
      · exact absurd hway (hirredundant child upper lower
          ((namesParent_iff_mem hd hdraft hchild hupper).2 hp)
          ((namesParent_iff_mem hd hdraft hchild hlower).2 hq) hne)

end Draft

namespace Closing

variable {n : Nat} {c : Closing} (h : c.Sound n) {meet : BitSet}
include h

theorem antichain_leastAbove : c.draft.Antichain ((c.leastAbove meet).map c.typeAt) := by
  intro s hs t ht hst
  obtain ⟨u, hu, rfl⟩ := List.mem_map.1 hs
  obtain ⟨v, hv, rfl⟩ := List.mem_map.1 ht
  obtain ⟨hu, -⟩ := (mem_leastAbove h).1 hu
  obtain ⟨hv, hleast⟩ := (mem_leastAbove h).1 hv
  by_contra hne
  exact hleast u hu.1 hu.2 (fun huv => hne (congrArg c.typeAt huv))
    ((h.contains_iff hv.1 u).2 ⟨hu.1, hst⟩)

theorem antichain_greatestBelow (hm : Missing n c meet) :
    c.draft.Antichain ((c.greatestBelow meet).map c.typeAt) := by
  intro s hs t ht hst
  obtain ⟨u, hu, rfl⟩ := List.mem_map.1 hs
  obtain ⟨v, hv, rfl⟩ := List.mem_map.1 ht
  obtain ⟨hu, hgreatest⟩ := (mem_greatestBelow h hm).1 hu
  obtain ⟨hv, -⟩ := (mem_greatestBelow h hm).1 hv
  by_contra hne
  exact hgreatest v hv (fun huv => hne (congrArg c.typeAt huv.symm))
    ((h.contains_iff (hm.lt_size hv) u).2 ⟨hm.lt_size hu, hst⟩)

/-- An insertion keeps a draft reduced. -/
theorem reduced_insertMeet (hm : Missing n c meet) (hc : c.draft.Reduced) :
    (c.insertMeet meet).draft.Reduced :=
  hc.insertBetween h.linked (insertable h hm) h.antisymm (antichain_leastAbove h)
    (antichain_greatestBelow h hm)

end Closing

namespace Hierarchy

/-- The closed draft of irredundant declarations is reduced. -/
theorem Stages.reduced {types : List (String × List String)} {d : Declarations} {draft : Draft}
    {order : List Nat} {c : Closing} {final : List Nat} (hs : Stages d draft order c final)
    (hd : Declarations.initial.declareAll types = .ok d)
    (hirredundant : Declarations.Irredundant types) : c.draft.Reduced := by
  refine hs.induct (P := fun c => c.draft.Reduced) ?_ fun h hm hc =>
    Closing.reduced_insertMeet h hm hc
  have hdraft := Draft.reduced_of_declarations hd hs.resolved hs.ordered hirredundant
  -- marking leaf types leaves the links as they are
  have hparents : (draft.opening order).draft.parentsOf = draft.parentsOf :=
    funext fun t => congrArg (fun parents : Array (List Nat) => parents[t]?.getD [])
      (draft.markLeaves_same order).2.1
  rw [Draft.Reduced, Draft.Below, hparents]
  exact hdraft

/-- Nothing of the hierarchy is between a type and its parent. -/
theorem Stages.eq_or_eq_of_between {types : List (String × List String)} {d : Declarations}
    {draft : Draft} {order : List Nat} {c : Closing} {final : List Nat}
    (hs : Stages d draft order c final) (hd : Declarations.initial.declareAll types = .ok d)
    (hirredundant : Declarations.Irredundant types) {t p x : Nat}
    (ht : t < (sequence c.draft final).length) (hp : p ∈ (ofDraft c.draft final).parentsOf t)
    (htx : (ofDraft c.draft final).Below t x) (hxp : (ofDraft c.draft final).Below x p) :
    x = t ∨ x = p := by
  obtain ⟨hpl, hpar⟩ := (mem_parentsOf_ofDraft hs.sound.linked hs.sound.classified hs.final ht).1 hp
  have hx : x < (sequence c.draft final).length := by
    rcases ReflTransGen.cases_head hxp with rfl | ⟨q, hq, -⟩
    · exact hpl
    · by_contra hge
      rw [parentsOf_ofDraft_of_le (by omega)] at hq
      cases hq
  have hnd := hs.sequence_ordered.nodup
  refine (hs.reduced hd hirredundant _ _ hpar (sequence c.draft final)[x]
    ((hs.below_iff hx ht).1 htx) ((hs.below_iff hpl hx).1 hxp)).imp ?_ ?_
  · exact hnd.getElem_inj_iff.1
  · exact hnd.getElem_inj_iff.1

end Hierarchy

namespace Lattice

/-! ## Immediate supertypes -/

/-- The first type is strictly above the second. -/
def StrictlyAbove (l : Lattice) (general specific : TypeId) : Prop :=
  (l.subsumes general specific).1 = true ∧ general ≠ specific

/-- The first type is strictly above the second, and no type is strictly between them. -/
def Covers (l : Lattice) (general specific : TypeId) : Prop :=
  l.StrictlyAbove general specific ∧
    ¬ ∃ between, l.StrictlyAbove general between ∧ l.StrictlyAbove between specific

theorem Sound.strictlyAbove_iff {l : Lattice} (hl : l.Sound) {p : TypeId} {t : Nat}
    (ht : t < l.typeCount) :
    l.StrictlyAbove p (.of t) ↔ ∃ i, p = .of i ∧ l.hierarchy.Below t i ∧ i ≠ t := by
  rw [StrictlyAbove, hl.subsumes_iff]
  cases p with
  | bottom => exact ⟨fun h => h.1.elim, nofun⟩
  | of i =>
    rw [hl.hierarchy.le_of_iff ht]
    constructor
    · rintro ⟨hbelow, hne⟩
      exact ⟨i, rfl, hbelow, fun heq => hne (congrArg TypeId.of heq)⟩
    · rintro ⟨j, hj, hbelow, hne⟩
      cases hj
      exact ⟨hbelow, fun heq => hne (TypeId.of.inj heq)⟩

/-- What is immediately above a type is a parent of it. -/
theorem Sound.mem_parents_of_covers {l : Lattice} (hl : l.Sound) {p : TypeId} {t : Nat}
    (ht : t < l.typeCount) (h : l.Covers p (.of t)) : p ∈ l.parents (.of t) := by
  obtain ⟨habove, hnone⟩ := h
  obtain ⟨i, rfl, hti, hne⟩ := (hl.strictlyAbove_iff ht).1 habove
  rcases ReflTransGen.cases_head hti with rfl | ⟨q, hq, hqi⟩
  · exact absurd rfl hne
  · have hqt := hl.hierarchy.parent_lt hq
    have hql : q < l.typeCount := Nat.lt_trans hqt.1 hqt.2
    by_cases hiq : i = q
    · exact hiq ▸ List.mem_map_of_mem hq
    · exact absurd ⟨.of q, (hl.strictlyAbove_iff hql).2 ⟨i, rfl, hqi, hiq⟩,
        (hl.strictlyAbove_iff ht).2 ⟨q, rfl, ReflTransGen.single hq, Nat.ne_of_lt hqt.1⟩⟩ hnone

/-- A parent with nothing between is immediately above. -/
theorem Sound.covers_of_mem_parents {l : Lattice} (hl : l.Sound) {p : TypeId} {t : Nat}
    (ht : t < l.typeCount) (hp : p ∈ l.parents (.of t))
    (hbetween : ∀ {q x}, q ∈ l.hierarchy.parentsOf t → l.hierarchy.Below t x →
      l.hierarchy.Below x q → x = t ∨ x = q) : l.Covers p (.of t) := by
  obtain ⟨q, hq, rfl⟩ := List.mem_map.1 hp
  have hqt := (hl.hierarchy.parent_lt hq).1
  refine ⟨(hl.strictlyAbove_iff ht).2 ⟨q, rfl, ReflTransGen.single hq, Nat.ne_of_lt hqt⟩, ?_⟩
  rintro ⟨u, hqu, hut⟩
  obtain ⟨x, rfl, htx, hxt⟩ := (hl.strictlyAbove_iff ht).1 hut
  have hxl : x < l.typeCount := Nat.lt_of_le_of_lt (hl.hierarchy.le_of_below htx) ht
  obtain ⟨k, hk, hxk, hkx⟩ := (hl.strictlyAbove_iff hxl).1 hqu
  cases hk
  exact (hbetween hq htx hxk).elim hxt (Ne.symm hkx)

/-- In a lattice of irredundant declarations the parents and the children of a type, inserted types
included, are the types immediately above it and immediately below it. -/
theorem mem_parents_iff_covers {types : List (String × List String)} {d : Declarations}
    {l₀ l : Lattice} (hd : Declarations.initial.declareAll types = .ok d)
    (hbuilt : ofDeclarations d = .ok l₀) (hgrown : Grown l₀ l)
    (hirredundant : Declarations.Irredundant types) {t : TypeId} (ht : l.isGrammarType t = true) :
    (∀ p, p ∈ l.parents t ↔ l.Covers p t) ∧
      ∀ s, s ∈ l.children t ↔ l.isGrammarType s = true ∧ l.Covers t s := by
  have hl := (sound_of_declarations hd hbuilt).of_grown hgrown
  obtain ⟨draft, order, c, final, hs, heq⟩ := exists_stages hd hbuilt hgrown
  have hparents : ∀ {i} (_ : i < l.typeCount) p, p ∈ l.parents (.of i) ↔ l.Covers p (.of i) := by
    intro i hi p
    have hil : i < (Hierarchy.sequence c.draft final).length := by
      rw [← hs.size_eq, ← heq]
      exact hi
    refine ⟨fun hp => hl.covers_of_mem_parents hi hp ?_, hl.mem_parents_of_covers hi⟩
    rw [heq]
    exact hs.eq_or_eq_of_between hd hirredundant hil
  cases t with
  | bottom => cases ht
  | of t =>
    refine ⟨hparents (of_decide_eq_true ht), fun s => ?_⟩
    cases s with
    | bottom => simp [children, isGrammarType]
    | of s =>
      have hinverse : TypeId.of s ∈ l.children (.of t) ↔ TypeId.of t ∈ l.parents (.of s) := by
        simp only [children, parents, List.mem_map, TypeId.of.injEq, exists_eq_right]
        rw [heq]
        exact hs.mem_parentsOf_iff_mem_childrenOf.symm
      rw [hinverse]
      constructor
      · intro hts
        obtain ⟨j, hj, hjt⟩ := List.mem_map.1 hts
        have hsl : s < l.typeCount := (hl.hierarchy.parent_lt hj).2
        exact ⟨decide_eq_true hsl, (hparents hsl _).1 hts⟩
      · rintro ⟨hs, hcovers⟩
        exact (hparents (of_decide_eq_true hs) _).2 hcovers

/-- Two types that share two subtypes: the type that is put between them, after a question. -/
theorem mem_parents_iff_covers_diamond : ∃ (d : Declarations) (l₀ l : Lattice),
    Declarations.initial.declareAll
      [("a", []), ("b", []), ("c", ["a", "b"]), ("d", ["a", "b"])] = .ok d ∧
    ofDeclarations d = .ok l₀ ∧ Grown l₀ l ∧
    Declarations.Irredundant [("a", []), ("b", []), ("c", ["a", "b"]), ("d", ["a", "b"])] ∧
    l.isGrammarType (.of 3) = true ∧ (∀ p, p ∈ l.parents (.of 3) ↔ l.Covers p (.of 3)) ∧
    ∀ s, s ∈ l.children (.of 3) ↔ l.isGrammarType s = true ∧ l.Covers (.of 3) s := by
  obtain ⟨d, l₀, hd, hl, hcount⟩ := built_diamond
  have hgrown : Grown l₀ (l₀.unify (.of 1) (.of 2)).2 := .unify _ _ (.refl _)
  have htype : (l₀.unify (.of 1) (.of 2)).2.isGrammarType (.of 3) = true := by
    have hlt : 3 < l₀.typeCount := by rw [hcount]; decide
    rw [isGrammarType, typeCount, hierarchy_unify]
    exact decide_eq_true hlt
  have hnamed : ∀ child parent, Declarations.NamesParent
      [("a", []), ("b", []), ("c", ["a", "b"]), ("d", ["a", "b"])] child parent →
      (child = "a" ∨ child = "b") ∧ parent = topName ∨
        (child = "c" ∨ child = "d") ∧ (parent = "a" ∨ parent = "b") := by
    rintro child parent ⟨parents, hmem, hparent⟩
    simp only [List.mem_cons, Prod.mk.injEq, List.not_mem_nil, or_false] at hmem
    rcases hmem with ⟨rfl, rfl⟩ | ⟨rfl, rfl⟩ | ⟨rfl, rfl⟩ | ⟨rfl, rfl⟩ <;> simpa using hparent
  have hirredundant : Declarations.Irredundant
      [("a", []), ("b", []), ("c", ["a", "b"]), ("d", ["a", "b"])] := by
    intro child p q hp hq hne hway
    -- only `a` and `b` have a sibling, and above them is the universal type alone
    obtain ⟨m, hm, hmp⟩ := TransGen.head'_iff.1 hway
    rcases hnamed child q hq with ⟨hchild, rfl⟩ | ⟨hchild, hq⟩
    · exact absurd (hnamed _ _ hm) (by simp [topName])
    · have hp := ((hnamed child p hp).resolve_left fun h => by
        rcases hchild with rfl | rfl <;> exact absurd h.1 (by decide)).2
      have hm := ((hnamed q m hm).resolve_right fun h => by
        rcases hq with rfl | rfl <;> exact absurd h.1 (by decide)).2
      subst hm
      rcases ReflTransGen.cases_head hmp with rfl | ⟨u, hu, -⟩
      · exact absurd hp (by decide)
      · exact absurd (hnamed _ _ hu) (by simp [topName])
  exact ⟨d, l₀, _, hd, hl, hgrown, hirredundant, htype,
    mem_parents_iff_covers hd hl hgrown hirredundant htype⟩

end Lattice

end FeatureLogic
