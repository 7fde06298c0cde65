import FeatureLogic.Proofs.Fallible
import FeatureLogic.Proofs.Lattice.Order

/-!
Drafts of declarations. A draft made of declarations that were all accepted is linked, and its
names are those that were declared, each once.
-/

namespace FeatureLogic

/-! ## Declarations -/

namespace Declarations

/-- What every accepted declaration keeps: each name has a list of parents, empty for the universal
type alone. -/
structure Sound (d : Declarations) : Prop where
  parents_size : d.parents.size = d.names.size
  size_pos : 0 < d.names.size
  parents_eq_nil : ∀ {i list}, d.parents[i]? = some list → (list = [] ↔ i = 0)

theorem size_initial : initial.names.size = 1 :=
  NameTable.size_insert_of_new (by simp [NameTable.index?, NameTable.empty])

theorem sound_initial : Sound initial where
  parents_size := size_initial.symm
  size_pos := by
    rw [size_initial]
    exact Nat.one_pos
  parents_eq_nil := by
    intro i list h
    obtain ⟨hi, rfl⟩ := Array.getElem?_eq_some_iff.1 h
    have : i = 0 := by simpa [initial] using hi
    subst this
    simp [initial]

theorem Sound.declare {d d' : Declarations} (h : d.Sound) {name : String} {parents : List String}
    (hd : d.declare name parents = .ok d') : d'.Sound := by
  unfold Declarations.declare at hd
  split at hd
  · cases hd
  split at hd
  · cases hd
  rename_i hnew
  have hnone : d.names.index? name = none := by simpa using hnew
  cases hd
  refine ⟨?_, ?_, ?_⟩
  · simp [NameTable.size_insert_of_new hnone, h.parents_size]
  · simp [NameTable.size_insert_of_new hnone]
  · intro i list hi
    simp only [Array.getElem?_push] at hi
    split at hi
    · rename_i hlast
      have hpos := h.size_pos
      rw [h.parents_size] at hlast
      cases hi
      constructor
      · split <;> simp_all
      · intro h0
        omega
    · exact h.parents_eq_nil hi

theorem sound_of_declareAll {types : List (String × List String)} {d d' : Declarations}
    (h : d.Sound) (hd : d.declareAll types = .ok d') : d'.Sound := by
  induction types generalizing d with
  | nil =>
    cases hd
    exact h
  | cons entry rest ih =>
    simp only [declareAll, List.foldlM_cons] at hd
    cases hfirst : d.declare entry.1 entry.2 with
    | error e => simp [hfirst, bind, Except.bind] at hd
    | ok next =>
      simp only [hfirst, bind, Except.bind] at hd
      exact ih (h.declare hfirst) hd

end Declarations

namespace Draft

/-! ## Resolving names -/

theorem resolve_fold {names : NameTable} {type : String} (list : List String)
    {found ps : List Nat} (hnd : found.Nodup) (hlt : ∀ p ∈ found, p < names.size)
    (h : list.foldlM (fun found parent =>
      match names.index? parent with
      | none => .error (.unknownParent type parent)
      | some p => .ok (if p ∈ found then found else found ++ [p])) found =
        (.ok ps : Except LatticeError (List Nat))) :
    ps.Nodup ∧ (∀ p ∈ ps, p < names.size) ∧ (ps = [] ↔ found = [] ∧ list = []) := by
  induction list generalizing found with
  | nil =>
    cases h
    exact ⟨hnd, hlt, by simp⟩
  | cons parent rest ih =>
    rw [List.foldlM_cons] at h
    cases hp : names.index? parent with
    | none => simp [hp, bind, Except.bind] at h
    | some p =>
      have hpl : p < names.size :=
        (Array.getElem?_eq_some_iff.1 (NameTable.index?_eq_some_iff.1 hp)).1
      simp only [hp, bind, Except.bind] at h
      by_cases hmem : p ∈ found
      · rw [if_pos hmem] at h
        obtain ⟨h₁, h₂, h₃⟩ := ih hnd hlt h
        refine ⟨h₁, h₂, h₃.trans ?_⟩
        have := List.ne_nil_of_mem hmem
        simp [this]
      · rw [if_neg hmem] at h
        have hnd' : (found ++ [p]).Nodup := by
          rw [List.nodup_append]
          refine ⟨hnd, List.nodup_singleton p, fun a ha b hb hab => hmem ?_⟩
          rw [← List.mem_singleton.1 hb, ← hab]
          exact ha
        obtain ⟨h₁, h₂, h₃⟩ := ih hnd' (by simpa [or_imp, forall_and] using ⟨hlt, hpl⟩) h
        exact ⟨h₁, h₂, h₃.trans (by simp)⟩

theorem resolveParents_ok {names : NameTable} {type : String} {list : List String} {ps : List Nat}
    (h : resolveParents names type list = .ok ps) :
    ps.Nodup ∧ (∀ p ∈ ps, p < names.size) ∧ (ps = [] ↔ list = []) := by
  obtain ⟨h₁, h₂, h₃⟩ := resolve_fold list List.nodup_nil (by simp) h
  exact ⟨h₁, h₂, by simpa using h₃⟩

/-! ## Children of parents -/

/-- Changing the lists of several types changes each of them once. -/
theorem getD_modifyAll (f : List Nat → List Nat) (ps : List Nat) (hnd : ps.Nodup)
    (lists : Array (List Nat)) (q : Nat) :
    (ps.foldl (fun lists p => lists.modify p f) lists)[q]?.getD [] =
      if q ∈ ps ∧ q < lists.size then f (lists[q]?.getD []) else lists[q]?.getD [] := by
  induction ps generalizing lists with
  | nil => simp
  | cons p rest ih =>
    obtain ⟨hp, hrest⟩ := List.nodup_cons.1 hnd
    rw [List.foldl_cons, ih hrest, Array.size_modify, Array.getElem?_modify]
    by_cases hq : p = q
    · subst hq
      by_cases hlt : p < lists.size <;> simp [hp, hlt]
    · simp [hq, Ne.symm hq]

theorem size_modifyAll (f : List Nat → List Nat) (ps : List Nat) (lists : Array (List Nat)) :
    (ps.foldl (fun lists p => lists.modify p f) lists).size = lists.size := by
  induction ps generalizing lists with
  | nil => rfl
  | cons p rest ih => rw [List.foldl_cons, ih, Array.size_modify]

theorem getD_addChildren (parents : Array (List Nat)) (hnd : ∀ list ∈ parents, list.Nodup)
    (count : Nat) (lists : Array (List Nat)) :
    let result := (List.range count).foldl (fun lists child =>
      (parents[child]?.getD []).foldl (fun lists p => lists.modify p (· ++ [child])) lists) lists
    result.size = lists.size ∧ ∀ q < lists.size, result[q]?.getD [] =
      lists[q]?.getD [] ++ (List.range count).filter fun child => q ∈ parents[child]?.getD [] := by
  induction count with
  | zero => simp
  | succ count ih =>
    obtain ⟨hsize, hget⟩ := ih
    simp only [List.range_succ, List.foldl_append, List.foldl_cons, List.foldl_nil]
    refine ⟨by rw [size_modifyAll, hsize], fun q hq => ?_⟩
    have hlast : (parents[count]?.getD []).Nodup := by
      cases hc : parents[count]? with
      | none => simp
      | some list => exact hnd list (Array.mem_of_getElem? hc)
    rw [getD_modifyAll _ _ hlast, hget q hq, hsize, List.filter_append]
    by_cases hmem : q ∈ parents[count]?.getD [] <;> simp [hmem, hq]

theorem childrenOfParents_size (parents : Array (List Nat)) (hnd : ∀ list ∈ parents, list.Nodup) :
    (childrenOfParents parents).size = parents.size := by
  have := (getD_addChildren parents hnd parents.size (.replicate parents.size [])).1
  simpa [childrenOfParents] using this

/-- The children of a type are the types that have it for a parent. -/
theorem childrenOfParents_getD (parents : Array (List Nat)) (hnd : ∀ list ∈ parents, list.Nodup)
    {q : Nat} (hq : q < parents.size) : (childrenOfParents parents)[q]?.getD [] =
      (List.range parents.size).filter fun child => q ∈ parents[child]?.getD [] := by
  have := (getD_addChildren parents hnd parents.size (.replicate parents.size [])).2 q
    (by simpa using hq)
  simpa [childrenOfParents, hq] using this

/-! ## The draft -/

/-- A draft is linked if its children are those of its lists of parents, and these have no
repetition, are of types that there are, and are empty for the universal type only. -/
theorem linked_of_parents {d : Draft} (hsize : d.parents.size = d.size)
    (hchildren : d.children = childrenOfParents d.parents) (hnodup : ∀ t, (d.parentsOf t).Nodup)
    (hlt : ∀ {t p}, p ∈ d.parentsOf t → p < d.size)
    (hnil : ∀ {t : Nat}, t < d.size → (d.parentsOf t = [] ↔ t = 0)) : d.Linked := by
  have hlists : ∀ list ∈ d.parents, list.Nodup := by
    intro list hlist
    obtain ⟨t, ht⟩ := Array.getElem?_of_mem hlist
    have hparents := hnodup t
    rwa [parentsOf, ht, Option.getD_some] at hparents
  have hsize' := childrenOfParents_size d.parents hlists
  -- what is no type of the draft has no children, and is no parent either
  have hget : ∀ p, d.childrenOf p =
      (List.range d.parents.size).filter fun t => p ∈ d.parentsOf t := by
    intro p
    rw [childrenOf, hchildren]
    rcases Nat.lt_or_ge p d.parents.size with hp | hp
    · exact childrenOfParents_getD d.parents hlists hp
    · rw [Array.getElem?_eq_none (hsize' ▸ hp), Option.getD_none, eq_comm, List.filter_eq_nil_iff]
      intro t _ hmem
      exact Nat.not_lt.2 hp (hsize ▸ hlt (of_decide_eq_true hmem))
  refine ⟨hsize, hchildren ▸ hsize'.trans hsize, hlt, fun {t p} => ?_, hnodup, fun p => ?_, hnil⟩
  · rw [hget, List.mem_filter, List.mem_range, decide_eq_true_eq, and_iff_right_iff_imp]
    intro hmem
    by_contra ht
    rw [parentsOf, Array.getElem?_eq_none (Nat.not_lt.1 ht)] at hmem
    cases hmem
  · rw [hget]
    exact List.nodup_range.filter _

/-- A draft has the names of its declarations, and at each place the parents that are named there. -/
theorem ofDeclarations_ok {d : Declarations} (hd : d.Sound) {draft : Draft}
    (h : ofDeclarations d = .ok draft) :
    draft.names = d.names.names ∧ draft.parents.size = draft.size ∧
      draft.children = childrenOfParents draft.parents ∧ draft.leaf.size = draft.size ∧
      ∀ {t} (ht : t < d.names.names.size) (ht' : t < d.parents.size),
        resolveParents d.names d.names.names[t] d.parents[t] = .ok (draft.parentsOf t) := by
  simp only [ofDeclarations] at h
  cases hm : (d.names.toList.zip d.parents.toList).mapM
      fun x => resolveParents d.names x.1 x.2 with
  | error e => simp [hm, bind, Except.bind] at h
  | ok lists =>
    simp only [hm, bind, Except.bind, pure, Except.pure, Except.ok.injEq] at h
    have hall := forall₂_of_mapM hm
    have hzip : (d.names.toList.zip d.parents.toList).length = d.names.names.size := by
      have hsize : d.parents.size = d.names.names.size := hd.parents_size
      simp [NameTable.toList, hsize]
    subst h
    refine ⟨rfl, ?_, rfl, ?_, fun {t} ht ht' => ?_⟩
    · exact (List.size_toArray ..).trans (hall.length_eq.symm.trans hzip)
    · exact Array.size_replicate
    · have hplace : t < (d.names.toList.zip d.parents.toList).length := hzip ▸ ht
      have hlists : t < lists.length := hall.length_eq ▸ hplace
      have hresolved := (List.forall₂_iff_get.1 hall).2 t hplace hlists
      simp only [List.get_eq_getElem, List.getElem_zip, Array.getElem_toList] at hresolved
      rw [parentsOf, List.getElem?_toArray, List.getElem?_eq_getElem hlists, Option.getD_some]
      exact hresolved

/-- The draft of sound declarations is linked and keeps their names. -/
theorem linked_of_declarations {d : Declarations} (hd : d.Sound) {draft : Draft}
    (h : ofDeclarations d = .ok draft) :
    draft.Linked ∧ draft.names = d.names.names ∧ draft.leaf.size = draft.size := by
  obtain ⟨hnames, hparents, hchildren, hleaf, hresolved⟩ := ofDeclarations_ok hd h
  have hsize : draft.size = d.names.names.size := congrArg Array.size hnames
  have hentry : ∀ {t}, t < draft.size → (draft.parentsOf t).Nodup ∧
      (∀ p ∈ draft.parentsOf t, p < draft.size) ∧ (draft.parentsOf t = [] ↔ t = 0) := by
    intro t ht
    have hname : t < d.names.names.size := hsize ▸ ht
    have ht' : t < d.parents.size := Nat.lt_of_lt_of_eq hname hd.parents_size.symm
    obtain ⟨hnodup, hlt, hnil⟩ := resolveParents_ok (hresolved hname ht')
    exact ⟨hnodup, hsize ▸ hlt,
      hnil.trans (hd.parents_eq_nil (Array.getElem?_eq_getElem ht'))⟩
  have hnone : ∀ {t}, ¬ t < draft.size → draft.parentsOf t = [] := by
    intro t ht
    rw [parentsOf, Array.getElem?_eq_none (hparents ▸ Nat.not_lt.1 ht), Option.getD_none]
  refine ⟨linked_of_parents hparents hchildren (fun t => ?_) (fun {t p} hp => ?_)
    fun ht => (hentry ht).2.2, hnames, hleaf⟩
  · by_cases ht : t < draft.size
    · exact (hentry ht).1
    · exact hnone ht ▸ List.nodup_nil
  · by_cases ht : t < draft.size
    · exact (hentry ht).2.1 p hp
    · exact absurd (hnone ht ▸ hp) List.not_mem_nil

end Draft

end FeatureLogic
