import FeatureLogic.Proofs.Lattice.Conservation

/-!
Leaf types. Which types are leaf types is a matter of the declarations alone
(`Declarations.Leaf`): the marks that are made before the closure say it of the draft
(`Draft.isLeaf_markLeaves_iff`), and no insertion makes a leaf type or unmakes one
(`Hierarchy.Stages.isLeaf_iff_declared`).
-/

open Relation

namespace FeatureLogic

namespace Declarations

/-- A leaf type has one parent, and so has every type below it. -/
def Leaf (types : List (String × List String)) (name : String) : Prop :=
  ∀ below, ReflTransGen (NamesParent types) below name → ∃! parent, NamesParent types below parent

/-- A declared type that is no leaf type. -/
def Proper (types : List (String × List String)) (name : String) : Prop :=
  Declared types name ∧ ¬ Leaf types name

theorem Leaf.declared {types : List (String × List String)} {name : String}
    (h : Leaf types name) : Declared types name := by
  obtain ⟨_, ⟨parents, hmem, -⟩, -⟩ := h name ReflTransGen.refl
  exact .inr ⟨parents, hmem⟩

end Declarations

namespace Draft

/-! ## Marks -/

theorem exists_eq_singleton_iff {list : List Nat} (hnd : list.Nodup) :
    (∃ p, list = [p]) ↔ ∃! p, p ∈ list := by
  constructor
  · rintro ⟨p, rfl⟩
    exact ⟨p, List.mem_singleton_self p, fun _ hq => List.mem_singleton.1 hq⟩
  · rintro ⟨p, hp, hunique⟩
    exact ⟨p, List.perm_singleton.1 ((List.perm_ext_iff_of_nodup hnd (List.nodup_singleton p)).2
      fun q => ⟨fun hq => List.mem_singleton.2 (hunique q hq),
        fun hq => List.mem_singleton.1 hq ▸ hp⟩)⟩

section Marks

variable {d : Draft} {order : List Nat} (h : d.Linked) (hsize : d.leaf.size = d.size)
  (ho : d.Ordered order)
include h hsize ho

theorem one_parent_of_isLeaf_markLeaves {t u : Nat} (ht : (d.markLeaves order).isLeaf t = true)
    (hut : d.Below u t) : ∃ p, d.parentsOf u = [p] := by
  have hc := classified_markLeaves h hsize ho
  have hparents : ∀ s, (d.markLeaves order).parentsOf s = d.parentsOf s := fun s => by
    rw [parentsOf, (d.markLeaves_same order).2.1, parentsOf]
  suffices hleaf : (d.markLeaves order).isLeaf u = true by
    rw [← hparents]
    exact hc.leaf_parent hleaf
  induction hut using ReflTransGen.head_induction_on with
  | refl => exact ht
  | head hp _ ih => exact hc.leaf_of_parent ((hparents _).symm ▸ hp) ih

/-- A type is marked when it and every type below it have one parent. -/
theorem isLeaf_markLeaves_iff {t : Nat} (ht : t < d.size) :
    (d.markLeaves order).isLeaf t = true ↔ ∀ u, d.Below u t → ∃ p, d.parentsOf u = [p] := by
  refine ⟨fun hleaf u => one_parent_of_isLeaf_markLeaves h hsize ho hleaf, fun hone => ?_⟩
  have hmarked : ∀ {s}, s < d.size →
      (d.markLeaves order).isLeaf s = (d.markLeaves order).leafTest s := fun hs =>
    isLeaf_markLeaves_of_mem h hsize ho.irrefl (fun _ => ho.mem_iff.1) ho.nodup ho.parents_first
      (ho.mem_iff.2 hs)
  obtain ⟨-, hparents, hchildren, -⟩ := d.markLeaves_same order
  -- from the last type in the order up, as children have the larger places
  induction hk : order.length - order.idxOf t using Nat.strongRecOn generalizing t with
  | _ k ih =>
    obtain ⟨p, hp⟩ := hone t ReflTransGen.refl
    have hzero : t ≠ 0 := fun h0 => by
      rw [(h.parents_eq_nil ht).2 h0] at hp
      cases hp
    have hlength : ((d.markLeaves order).parentsOf t).length = 1 := by
      rw [parentsOf, hparents]
      exact congrArg List.length hp
    -- what is below a child is below the type
    have hbelow : ∀ c ∈ (d.markLeaves order).childrenOf t, (d.markLeaves order).isLeaf c = true := by
      intro c hc
      rw [childrenOf, hchildren] at hc
      have hct : t ∈ d.parentsOf c := h.mem_childrenOf.1 hc
      have hlt := ho.idxOf_lt h hct
      have hcl := List.idxOf_lt_length_of_mem (ho.mem_iff.2 (h.child_lt hct))
      exact ih _ (by omega) (h.child_lt hct) (fun u huc => hone u (huc.tail hct)) rfl
    rw [hmarked ht, leafTest, Bool.and_eq_true, Bool.and_eq_true, List.all_eq_true]
    exact ⟨⟨bne_iff_ne.2 hzero, beq_iff_eq.2 hlength⟩, hbelow⟩

end Marks

end Draft

namespace Hierarchy.Stages

variable {types : List (String × List String)} {d : Declarations} {draft : Draft}
  {order : List Nat} {c : Closing} {final : List Nat} (hs : Stages d draft order c final)
include hs

/-! ## Through the closure -/

/-- An inserted type is no leaf type, and the marks of the others stay. -/
theorem isLeaf_eq (t : Nat) : c.draft.isLeaf t = (draft.markLeaves order).isLeaf t :=
  hs.induct (P := fun c => ∀ t, c.draft.isLeaf t = (draft.markLeaves order).isLeaf t)
    (fun _ => rfl) (fun {c meet} h _ hc t => by
      rw [Closing.isLeaf_insertMeet c meet h.classified]
      split
      · rename_i hlast
        rw [← hc, hlast, Draft.isLeaf, Array.getElem?_eq_none h.classified.leaf_size.le]
        rfl
      · exact hc t) t

/-- The leaf types of the closed draft are those of the declarations. -/
theorem isLeaf_iff_declared (hd : Declarations.initial.declareAll types = .ok d) {t : Nat}
    {name : String} (ht : d.names.name? t = some name) :
    c.draft.isLeaf t = true ↔ Declarations.Leaf types name := by
  have hname : ∀ {u}, u < draft.size → ∃ z, d.names.name? u = some z :=
    Draft.exists_name_of_lt hd hs.resolved
  have htl : t < draft.size := by
    rw [Draft.size, hs.names_eq]
    exact (Array.getElem?_eq_some_iff.1 ht).1
  -- the parents of a type by number are its parents by name
  have hone : ∀ {u z}, d.names.name? u = some z →
      ((∃ p, draft.parentsOf u = [p]) ↔ ∃! parent, Declarations.NamesParent types z parent) := by
    intro u z hz
    rw [Draft.exists_eq_singleton_iff (hs.linked.parents_nodup u)]
    constructor
    · rintro ⟨p, hp, hunique⟩
      obtain ⟨parent, hparent⟩ := hname (hs.linked.parent_lt hp)
      refine ⟨parent, (Draft.namesParent_iff_mem hd hs.resolved hz hparent).2 hp, ?_⟩
      intro other hother
      obtain ⟨q, hq⟩ := Draft.exists_of_namesParent hd hs.resolved hother
      rw [hunique q ((Draft.namesParent_iff_mem hd hs.resolved hz hq).1 hother), hparent] at hq
      exact (Option.some.inj hq).symm
    · rintro ⟨parent, hparent, hunique⟩
      obtain ⟨p, hp⟩ := Draft.exists_of_namesParent hd hs.resolved hparent
      refine ⟨p, (Draft.namesParent_iff_mem hd hs.resolved hz hp).1 hparent, fun q hq => ?_⟩
      obtain ⟨other, hother⟩ := hname (hs.linked.parent_lt hq)
      rw [hunique other ((Draft.namesParent_iff_mem hd hs.resolved hz hother).2 hq),
        ← NameTable.index?_eq_some_iff] at hother
      exact Option.some.inj (hother.symm.trans (NameTable.index?_eq_some_iff.2 hp))
  rw [hs.isLeaf_eq, Draft.isLeaf_markLeaves_iff hs.linked hs.leaf_size hs.ordered htl]
  constructor
  · intro hbelow below hbt
    have hdeclared : Declarations.Declared types below := by
      rcases ReflTransGen.cases_head hbt with rfl | ⟨parent, hparent, -⟩
      · exact (Declarations.declared_iff hd).2 ⟨t, ht⟩
      · exact .inr (hparent.imp fun _ => And.left)
    obtain ⟨u, hu⟩ := (Declarations.declared_iff hd).1 hdeclared
    exact (hone hu).1 (hbelow u ((Draft.below_iff_declared hd hs.resolved hu ht).2 hbt))
  · intro hleaf u hut
    have hul : u < draft.size := by
      rcases ReflTransGen.cases_head hut with rfl | ⟨p, hp, -⟩
      · exact htl
      · exact hs.linked.child_lt hp
    obtain ⟨z, hz⟩ := hname hul
    exact (hone hz).2 (hleaf z ((Draft.below_iff_declared hd hs.resolved hz ht).1 hut))

end Hierarchy.Stages

end FeatureLogic
