import FeatureLogic.Grammar.Basic
import FeatureLogic.Proofs.Layout
import FeatureLogic.Proofs.Thinning

/-!
Putting back what was left out. Where a path of the original breaks off a fresh node of the greatest
type that the feature allows is put, in any order (`Graph.Refills`). If that is the type that the
value had, nothing is lost: once all paths are back, the structure is the original one but for the
numbers of its nodes (`Graph.Restoring.isomorphic`), and edges can be put back until they are
(`Graph.exists_refilled`).
-/

open Relation

namespace FeatureLogic

namespace Graph

/-- The last graph is `h` with some edges put back that `g` has below the root, each with a fresh
node of the greatest type that the feature allows. -/
inductive Refills (grammar : Grammar) (g : Graph) (root : NodeId) (h : Graph) : Graph → Prop
  | start : Refills grammar g root h h
  | edge {k : Graph} {path : List FeatureId} {n : NodeId} {f : FeatureId} {a : Appropriateness}
    (hk : Refills grammar g root h k) (hn : k.follow? root path = some n)
    (hlacks : k.value? n f = none) (hpath : (g.follow? root (path ++ [f])).isSome)
    (ha : grammar.appropriateness? f = some a) :
    Refills grammar g root h ((k.add a.maximal []).putEdge n f k.size)

/-- All paths of the first graph from the root are paths of the second one. -/
def PathsIn (g : Graph) (root : NodeId) (k : Graph) : Prop :=
  ∀ path, (g.follow? root path).isSome → (k.follow? root path).isSome

/-! ## One edge put back -/

section Hang

variable {k : Graph} {n : NodeId} {f : FeatureId} {type : TypeId}

theorem value?_add_nil (k : Graph) (type : TypeId) : (k.add type []).value? = k.value? := by
  funext m f
  rw [value?, value?, edges_add]
  split
  · rename_i hm
    rw [hm, edges_of_le (Nat.le_refl _)]
  · rfl

theorem value?_size (k : Graph) (f : FeatureId) : k.value? k.size f = none := by
  rw [value?, edges_of_le (Nat.le_refl _)]
  rfl

theorem value?_hang (hn : n < k.size) (m : NodeId) (f' : FeatureId) :
    ((k.add type []).putEdge n f k.size).value? m f' =
      if n = m ∧ f = f' then some k.size else k.value? m f' := by
  rw [value?_putEdge, value?_add_nil, size_add]
  simp only [Nat.lt_succ_of_lt hn, true_and]

theorem type_hang (m : NodeId) : ((k.add type []).putEdge n f k.size).type m =
    if m = k.size then type else k.type m := by
  rw [type_putEdge, type_add]

end Hang

/-- The nodes of `k` stand for nodes of `g`: `k` has what `h` left of them, and may have more. -/
structure Restoring (g h : Graph) (root : NodeId) (k : Graph) (μ : NodeId → NodeId) : Prop where
  sound : k.Sound
  root_lt : root < k.size
  root_eq : μ root = root
  type_eq : ∀ {n}, k.shape.Reach root n → k.type n = g.type (μ n)
  value : ∀ {n f m}, k.shape.Reach root n → k.value? n f = some m → g.value? (μ n) f = some (μ m)
  injOn : Set.InjOn μ {n | k.shape.Reach root n}
  lacks : ∀ {n f}, k.shape.Reach root n → k.value? n f = none → h.value? (μ n) f = none

open Classical in
/-- The nodes of `g` for which no node of `k` below the root stands. -/
noncomputable def unrestored (g : Graph) (root : NodeId) (k : Graph) (μ : NodeId → NodeId) :
    Finset NodeId :=
  (Finset.range g.size).filter fun m => ∀ n, k.shape.Reach root n → μ n ≠ m

theorem restoring_start {g h : Graph} {root : NodeId} (hh : h.Sound) (hroot : root < h.size)
    (hthin : g.shape.Thins root h.shape) : Restoring g h root h id where
  sound := hh
  root_lt := hroot
  root_eq := rfl
  type_eq _ := hthin.type_eq _
  value _ hv := hthin.value hv
  injOn := Function.injective_id.injOn
  lacks _ hv := hv

namespace Restoring

variable {g h k : Graph} {root : NodeId} {μ : NodeId → NodeId} (hk : Restoring g h root k μ)
include hk

theorem reach {n : NodeId} (hn : k.shape.Reach root n) : g.shape.Reach root (μ n) := by
  induction hn with
  | refl =>
    rw [hk.root_eq]
    exact ReflTransGen.refl
  | tail hn hs ih =>
    obtain ⟨f, hf⟩ := hs
    exact ih.value (hk.value hn hf)

theorem follow {path : List FeatureId} {n : NodeId} (hn : k.shape.follow? root path = some n) :
    g.shape.follow? root path = some (μ n) := by
  induction path using List.reverseRecOn generalizing n with
  | nil =>
    cases hn
    exact congrArg some hk.root_eq.symm
  | append_singleton path f ih =>
    obtain ⟨m, hm, hf⟩ := Shape.follow?_concat_eq_some.1 hn
    exact Shape.follow?_concat_eq_some.2 ⟨_, ih hm, hk.value (Shape.reach_of_follow hm) hf⟩

/-- What the other nodes stand for stays when the next node gets its own. -/
theorem update_of_reach {n : NodeId} (hn : k.shape.Reach root n) (v : NodeId) :
    Function.update μ k.size v n = μ n :=
  Function.update_of_ne (Nat.ne_of_lt (hk.sound.reach_lt hk.root_lt hn)) v μ

/-- While a path is not back, a value is lacking somewhere. -/
theorem exists_lacking (hall : ¬ g.PathsIn root k) : ∃ path n f v,
    k.shape.follow? root path = some n ∧ k.value? n f = none ∧ g.value? (μ n) f = some v := by
  obtain ⟨path, hpath⟩ := not_forall.1 hall
  obtain ⟨hon, hoff⟩ := Classical.not_imp.1 hpath
  obtain ⟨stem, f, rest, n, rfl, hn, hlacks⟩ :=
    Shape.exists_break (S := k.shape) (Option.not_isSome_iff_eq_none.1 hoff)
  obtain ⟨m, hm⟩ := Option.isSome_iff_exists.1 hon
  replace hm : g.shape.follow? root (stem ++ f :: rest) = some m := hm
  rw [Shape.follow?_append, hk.follow hn, Option.bind_some] at hm
  obtain ⟨v, hv, -⟩ := Option.bind_eq_some_iff.1 hm
  exact ⟨stem, n, f, v, hn, hlacks, hv⟩

/-- Once all paths are back the structure is the original one but for the numbers of its nodes. -/
theorem isomorphic (hg : g.Sound) (hall : g.PathsIn root k) :
    g.layout.Isomorphic root k.layout root := by
  refine (Layout.isomorphic_of_shape hk.sound.sorted hg.sorted ?_).symm
  refine ⟨μ, hk.root_eq, hk.injOn, fun n hn => ⟨(hk.type_eq hn).symm, fun f => ?_⟩⟩
  show g.value? (μ n) f = (k.value? n f).map μ
  cases hf : k.value? n f with
  | some m => exact hk.value hn hf
  | none =>
    cases hv : g.value? (μ n) f with
    | none => rfl
    | some v =>
      obtain ⟨path, hpath⟩ := Shape.exists_follow_of_reach hn
      have hback := hall (path ++ [f]) <| Option.isSome_iff_exists.2
        ⟨v, Shape.follow?_concat_eq_some.2 ⟨_, hk.follow hpath, hv⟩⟩
      obtain ⟨m, hm⟩ := Option.isSome_iff_exists.1 hback
      obtain ⟨n', hn', hf'⟩ := (Shape.follow?_concat_eq_some (S := k.shape)).1 hm
      cases hpath.symm.trans hn'
      exact absurd (hf.symm.trans hf') nofun

section Hang

variable {n v : NodeId} {f : FeatureId} (hn : k.shape.Reach root n)
include hn

/-- Only the fresh node is new below the root. -/
theorem reach_hang {type : TypeId} {m : NodeId}
    (hm : ((k.add type []).putEdge n f k.size).shape.Reach root m) :
    k.shape.Reach root m ∨ m = k.size := by
  have hlt := hk.sound.reach_lt hk.root_lt hn
  induction hm with
  | refl => exact .inl ReflTransGen.refl
  | tail _ hs ih =>
    obtain ⟨f', hf'⟩ := hs
    have hvalue := (value?_hang hlt _ f').symm.trans hf'
    split at hvalue
    · exact .inr (Option.some.inj hvalue).symm
    · rcases ih with hm | rfl
      · exact .inl (hm.value hvalue)
      · rw [value?_size] at hvalue
        cases hvalue

/-- The fresh node is the value of the feature. -/
theorem value?_fresh {type : TypeId} :
    ((k.add type []).putEdge n f k.size).value? n f = some k.size := by
  rw [value?_hang (hk.sound.reach_lt hk.root_lt hn), if_pos ⟨rfl, rfl⟩]

theorem reach_of_old {type : TypeId} (hlacks : k.value? n f = none) {m : NodeId}
    (hm : k.shape.Reach root m) :
    ((k.add type []).putEdge n f k.size).shape.Reach root m := by
  refine ReflTransGen.mono (fun m m' ⟨f', hf'⟩ => ⟨f', ?_⟩) _ _ hm
  refine (value?_hang (hk.sound.reach_lt hk.root_lt hn) m f').trans ?_
  rw [if_neg]
  · exact hf'
  · rintro ⟨rfl, rfl⟩
    exact absurd (hlacks.symm.trans hf') nofun

variable (hlacks : k.value? n f = none) (hthin : g.shape.Thins root h.shape)
include hlacks hthin

/-- No node stands for a value that is lacking. -/
theorem ne_of_lacking (hv : g.value? (μ n) f = some v) {m : NodeId}
    (hm : k.shape.Reach root m) : μ m ≠ v := by
  rintro rfl
  have hlone := (hthin.dropped hv (hk.lacks hn hlacks)).1
  rcases ReflTransGen.cases_tail hm with heq | ⟨m', hm', f', hf'⟩
  · exact hlone.1 (heq ▸ hk.root_eq)
  · obtain ⟨heq, rfl⟩ := hlone.unique (hk.reach hn) hv (hk.reach hm') (hk.value hm' hf')
    obtain rfl := hk.injOn hm' hn heq
    exact absurd (hlacks.symm.trans hf') nofun

/-- The fresh node stands for the value that was lacking. -/
theorem hang (hv : g.value? (μ n) f = some v) :
    Restoring g h root ((k.add (g.type v) []).putEdge n f k.size)
      (Function.update μ k.size v) where
  sound := (hk.sound.add Edges.sorted_nil (List.forall_mem_nil _)).putEdge n f (by simp)
  root_lt := by simpa using Nat.lt_succ_of_lt hk.root_lt
  root_eq := (hk.update_of_reach ReflTransGen.refl v).trans hk.root_eq
  type_eq {m} hm := by
    rw [type_hang]
    rcases hk.reach_hang hn hm with hm | rfl
    · rw [if_neg (Nat.ne_of_lt (hk.sound.reach_lt hk.root_lt hm)), hk.update_of_reach hm,
        hk.type_eq hm]
    · rw [if_pos rfl, Function.update_self]
  value {m f' m'} hm hm' := by
    rw [value?_hang (hk.sound.reach_lt hk.root_lt hn)] at hm'
    split at hm'
    · rename_i heq
      obtain ⟨rfl, rfl⟩ := heq
      cases hm'
      rw [hk.update_of_reach hn, Function.update_self, hv]
    · rcases hk.reach_hang hn hm with hm | rfl
      · rw [hk.update_of_reach hm, hk.update_of_reach (hm.value hm'), hk.value hm hm']
      · rw [value?_size] at hm'
        cases hm'
  injOn m hm m' hm' heq := by
    -- no node that is there stands for the value yet
    have hne : ∀ {m}, k.shape.Reach root m → μ m ≠ v := hk.ne_of_lacking hn hlacks hthin hv
    rcases hk.reach_hang hn hm with hm | rfl <;> rcases hk.reach_hang hn hm' with hm' | rfl
    · rw [hk.update_of_reach hm, hk.update_of_reach hm'] at heq
      exact hk.injOn hm hm' heq
    · rw [hk.update_of_reach hm, Function.update_self] at heq
      exact absurd heq (hne hm)
    · rw [hk.update_of_reach hm', Function.update_self] at heq
      exact absurd heq.symm (hne hm')
    · rfl
  lacks {m f'} hm hnone := by
    rw [value?_hang (hk.sound.reach_lt hk.root_lt hn)] at hnone
    split at hnone
    · cases hnone
    · rcases hk.reach_hang hn hm with hm | rfl
      · rw [hk.update_of_reach hm]
        exact hk.lacks hm hnone
      · rw [Function.update_self]
        exact (hthin.dropped hv (hk.lacks hn hlacks)).2 f'

/-- One node less is left for which none stands. -/
theorem card_unrestored_hang (hv : g.value? (μ n) f = some v) (hlt : v < g.size) :
    (unrestored g root ((k.add (g.type v) []).putEdge n f k.size)
      (Function.update μ k.size v)).card < (unrestored g root k μ).card := by
  classical
  refine Finset.card_lt_card ((Finset.ssubset_iff_of_subset ?_).2 ⟨v, ?_, ?_⟩)
  · refine Finset.monotone_filter_right _ fun m _ hm n' hn' => ?_
    rw [← hk.update_of_reach hn' v]
    exact hm n' (hk.reach_of_old hn hlacks hn')
  · exact Finset.mem_filter.2 ⟨Finset.mem_range.2 hlt,
      fun m hm => hk.ne_of_lacking hn hlacks hthin hv hm⟩
  · intro hmem
    refine (Finset.mem_filter.1 hmem).2 k.size ?_ (Function.update_self ..)
    exact (hk.reach_of_old hn hlacks hn).value (hk.value?_fresh hn)

end Hang

end Restoring

/-! ## All edges put back -/

section Refills

variable {grammar : Grammar} {g h : Graph} {root : NodeId} (hg : g.Sound) (hh : h.Sound)
  (hroot : root < h.size) (hthin : g.shape.Thins root h.shape)
  (hgreatest : ∀ {n f v}, g.value? n f = some v → h.value? n f = none →
    ∃ a, grammar.appropriateness? f = some a ∧ g.type v = a.maximal)
include hh hroot hthin hgreatest

theorem Refills.exists_restoring {k : Graph} (hk : Refills grammar g root h k) :
    ∃ μ, Restoring g h root k μ := by
  induction hk with
  | start => exact ⟨id, restoring_start hh hroot hthin⟩
  | @edge k path n f a _ hn hlacks hpath ha ih =>
    obtain ⟨μ, hk⟩ := ih
    obtain ⟨v, hv⟩ := Option.isSome_iff_exists.1 hpath
    obtain ⟨n', hn', hv⟩ := (Shape.follow?_concat_eq_some (S := g.shape)).1 hv
    obtain rfl : μ n = n' := Option.some.inj ((hk.follow hn).symm.trans hn')
    have hreach := Shape.reach_of_follow (S := k.shape) hn
    obtain ⟨a', ha', htype⟩ := hgreatest hv (hk.lacks hreach hlacks)
    obtain rfl : a = a' := Option.some.inj (ha.symm.trans ha')
    exact ⟨_, htype ▸ hk.hang hreach hlacks hthin hv⟩

include hg in
/-- Whatever the order in which edges were put back, once all paths are back nothing is lost. -/
theorem Refills.isomorphic {k : Graph} (hk : Refills grammar g root h k)
    (hall : g.PathsIn root k) : g.layout.Isomorphic root k.layout root := by
  obtain ⟨μ, hμ⟩ := hk.exists_restoring hh hroot hthin hgreatest
  exact hμ.isomorphic hg hall

omit hh hroot in
include hg in
/-- From any point on edges can be put back until all paths are back. -/
theorem Refills.exists_pathsIn {k : Graph} {μ : NodeId → NodeId} (hk : Refills grammar g root h k)
    (hμ : Restoring g h root k μ) : ∃ k, Refills grammar g root h k ∧ g.PathsIn root k := by
  induction hleft : (unrestored g root k μ).card using Nat.strong_induction_on
    generalizing k μ with
  | _ left ih =>
    by_cases hall : g.PathsIn root k
    · exact ⟨k, hk, hall⟩
    obtain ⟨stem, n, f, v, hn, hlacks, hv⟩ := hμ.exists_lacking hall
    have hreach := Shape.reach_of_follow hn
    obtain ⟨a, ha, htype⟩ := hgreatest hv (hμ.lacks hreach hlacks)
    have hpath : (g.follow? root (stem ++ [f])).isSome := Option.isSome_iff_exists.2
      ⟨v, Shape.follow?_concat_eq_some.2 ⟨_, hμ.follow hn, hv⟩⟩
    have hless := hμ.card_unrestored_hang hreach hlacks hthin hv (hg.value_lt hv)
    exact ih _ (hleft ▸ hless) (htype ▸ hk.edge hn hlacks hpath ha)
      (hμ.hang hreach hlacks hthin hv) rfl

include hg in
theorem exists_refilled : ∃ k, Refills grammar g root h k ∧ g.PathsIn root k :=
  Refills.exists_pathsIn hg hthin hgreatest .start (restoring_start hh hroot hthin)

end Refills

end Graph

end FeatureLogic
