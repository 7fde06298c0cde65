import FeatureLogic.Proofs.Shape

/-!
Structures with values left out. Only a value to which no other edge leads and below which nothing
is left may be left out (`Shape.Thins`). So what is left out hangs from the rest in trees: a path
that is gone leads, from where it leaves the rest, through nodes with one edge to each, and two
paths to one node are both left or both gone.
-/

namespace FeatureLogic.Shape

/-- Just one edge from a node below `x` leads to `m`, and `m` is not `x`. -/
def Lone (S : Shape) (x m : NodeId) : Prop :=
  m ≠ x ∧ ∃! p : NodeId × FeatureId, S.Reach x p.1 ∧ S.value? p.1 p.2 = some m

/-- The second structure is the first with values below `x` left out, each of them the value of one
feature only and with no values left of its own. -/
structure Thins (S : Shape) (x : NodeId) (T : Shape) : Prop where
  type_eq : ∀ n, T.type n = S.type n
  value : ∀ {n f m}, T.value? n f = some m → S.value? n f = some m
  dropped : ∀ {n f m}, S.value? n f = some m → T.value? n f = none →
    S.Lone x m ∧ ∀ k, T.value? m k = none

/-! ## Paths -/

theorem follow?_append (S : Shape) (x : NodeId) (path rest : List FeatureId) :
    S.follow? x (path ++ rest) = (S.follow? x path).bind fun n => S.follow? n rest :=
  List.foldlM_append

theorem follow?_concat (S : Shape) (x : NodeId) (path : List FeatureId) (f : FeatureId) :
    S.follow? x (path ++ [f]) = (S.follow? x path).bind fun n => S.value? n f := by
  rw [follow?_append]
  refine congrArg _ (funext fun n => ?_)
  simp [follow?]

theorem follow?_concat_eq_some {S : Shape} {x m : NodeId} {path : List FeatureId}
    {f : FeatureId} : S.follow? x (path ++ [f]) = some m ↔
      ∃ n, S.follow? x path = some n ∧ S.value? n f = some m := by
  rw [follow?_concat, Option.bind_eq_some_iff]

/-- A path that leads nowhere breaks off at a node without the next feature. -/
theorem exists_break {S : Shape} {x : NodeId} {path : List FeatureId}
    (h : S.follow? x path = none) : ∃ stem f rest n, path = stem ++ f :: rest ∧
      S.follow? x stem = some n ∧ S.value? n f = none := by
  induction path generalizing x with
  | nil => cases h
  | cons f rest ih =>
    cases hf : S.value? x f with
    | none => exact ⟨[], f, rest, x, rfl, rfl, hf⟩
    | some m =>
      have hrest : S.follow? m rest = none := by
        simpa [follow?, hf] using h
      obtain ⟨stem, f', rest', n, rfl, hstem, hn⟩ := ih hrest
      refine ⟨f :: stem, f', rest', n, rfl, ?_, hn⟩
      simpa [follow?, hf] using hstem

theorem exists_follow_of_reach {S : Shape} {x n : NodeId} (h : S.Reach x n) :
    ∃ path, S.follow? x path = some n := by
  induction h with
  | refl => exact ⟨[], rfl⟩
  | tail _ hs ih =>
    obtain ⟨path, hpath⟩ := ih
    obtain ⟨f, hf⟩ := hs
    exact ⟨path ++ [f], follow?_concat_eq_some.2 ⟨_, hpath, hf⟩⟩

section Lone

variable {S : Shape} {x m : NodeId} (h : S.Lone x m)
include h

theorem Lone.unique {n n' : NodeId} {f f' : FeatureId} (hn : S.Reach x n)
    (hm : S.value? n f = some m) (hn' : S.Reach x n') (hm' : S.value? n' f' = some m) :
    n' = n ∧ f' = f := by
  obtain ⟨p, -, hp⟩ := h.2
  exact Prod.mk.inj ((hp (n', f') ⟨hn', hm'⟩).trans (hp (n, f) ⟨hn, hm⟩).symm)

/-- All paths to the node come to it along its one edge. -/
theorem Lone.exists_before {path path' : List FeatureId} (hp : S.follow? x path = some m)
    (hp' : S.follow? x path' = some m) : ∃ before before' f n, path = before ++ [f] ∧
      path' = before' ++ [f] ∧ S.follow? x before = some n ∧ S.follow? x before' = some n ∧
      S.value? n f = some m := by
  have hlast : ∀ {path}, S.follow? x path = some m → ∃ before f n, path = before ++ [f] ∧
      S.follow? x before = some n ∧ S.value? n f = some m := by
    intro path hp
    rcases List.eq_nil_or_concat path with rfl | ⟨before, f, rfl⟩
    · cases hp
      exact absurd rfl h.1
    · rw [List.concat_eq_append] at hp ⊢
      obtain ⟨n, hn, hf⟩ := follow?_concat_eq_some.1 hp
      exact ⟨before, f, n, rfl, hn, hf⟩
  obtain ⟨before, f, n, rfl, hn, hf⟩ := hlast hp
  obtain ⟨before', f', n', rfl, hn', hf'⟩ := hlast hp'
  obtain ⟨rfl, rfl⟩ := h.unique (reach_of_follow hn) hf (reach_of_follow hn') hf'
  exact ⟨before, before', f', n', rfl, rfl, hn, hn', hf⟩

end Lone

/-! ## What is left, and what is gone -/

namespace Thins

variable {S T : Shape} {x n : NodeId} {path path' : List FeatureId} (h : S.Thins x T)
include h

theorem follow (hn : T.follow? x path = some n) : S.follow? x path = some n := by
  induction path using List.reverseRecOn generalizing n with
  | nil => exact hn
  | append_singleton path f ih =>
    obtain ⟨m, hm, hf⟩ := follow?_concat_eq_some.1 hn
    exact follow?_concat_eq_some.2 ⟨m, ih hm, h.value hf⟩

/-- A path that is gone led to a node with one edge to it, of which nothing is left. -/
theorem lone_of_lost (hn : S.follow? x path = some n) (hlost : T.follow? x path = none) :
    S.Lone x n ∧ ∀ k, T.value? n k = none := by
  induction path using List.reverseRecOn generalizing n with
  | nil => cases hlost
  | append_singleton path f ih =>
    obtain ⟨m, hm, hf⟩ := follow?_concat_eq_some.1 hn
    cases hbefore : T.follow? x path with
    | none => exact h.dropped hf ((ih hm hbefore).2 f)
    | some m' =>
      have heq : m' = m := Option.some.inj ((h.follow hbefore).symm.trans hm)
      rw [follow?_concat, hbefore] at hlost
      exact h.dropped hf (heq ▸ hlost)

/-- The root, and what has more than one edge to it, keeps all paths to it. -/
theorem follow_of_not_lone (hn : S.follow? x path = some n) (hnot : ¬ S.Lone x n) :
    T.follow? x path = some n := by
  cases hleft : T.follow? x path with
  | some m => exact (h.follow hleft).symm.trans hn
  | none => exact absurd (h.lone_of_lost hn hleft).1 hnot

theorem reach (hn : T.Reach x n) : S.Reach x n := by
  obtain ⟨path, hpath⟩ := exists_follow_of_reach hn
  exact reach_of_follow (h.follow hpath)

/-- A node to which one edge is left had one edge to it. -/
theorem lone (hn : T.Lone x n) : S.Lone x n := by
  by_contra hnot
  obtain ⟨hne, ⟨m, f⟩, ⟨hm, hf⟩, hunique⟩ := hn
  refine hnot ⟨hne, (m, f), ⟨h.reach hm, h.value hf⟩, ?_⟩
  rintro ⟨m', f'⟩ ⟨hm', hf'⟩
  -- a path along any edge to the node is left
  obtain ⟨path, hpath⟩ := exists_follow_of_reach hm'
  have hleft := h.follow_of_not_lone (follow?_concat_eq_some.2 ⟨m', hpath, hf'⟩) hnot
  obtain ⟨k, hk, hkf⟩ := follow?_concat_eq_some.1 hleft
  obtain rfl : k = m' := Option.some.inj ((h.follow hk).symm.trans hpath)
  exact hunique (k, f') ⟨reach_of_follow hk, hkf⟩

/-- From where it leaves what is left, a path that is gone leads through nodes with one edge to
each of them. -/
theorem exists_stem (hn : S.follow? x path = some n) (hlost : T.follow? x path = none) :
    ∃ stem rest, path = stem ++ rest ∧ rest ≠ [] ∧ (T.follow? x stem).isSome ∧
      ∀ front, front <+: rest → front ≠ [] → T.follow? x (stem ++ front) = none ∧
        ∃ m, S.follow? x (stem ++ front) = some m ∧ S.Lone x m := by
  obtain ⟨stem, f, rest, k, rfl, hstem, hk⟩ := exists_break hlost
  refine ⟨stem, f :: rest, rfl, List.cons_ne_nil _ _, by simp [hstem], ?_⟩
  rintro front ⟨tail, heq⟩ hfront
  obtain ⟨front, rfl⟩ : ∃ front', front = f :: front' := by
    cases front with
    | nil => exact absurd rfl hfront
    | cons g front' =>
      cases heq
      exact ⟨front', rfl⟩
  rw [← heq, ← List.append_assoc, follow?_append] at hn
  obtain ⟨m, hm, -⟩ := Option.bind_eq_some_iff.1 hn
  have hgone : T.follow? x (stem ++ f :: front) = none := by
    rw [follow?_append, hstem]
    simp [follow?, hk]
  exact ⟨hgone, m, hm, (h.lone_of_lost hm hgone).1⟩

/-! ### Paths to one node -/

theorem remains_of_coreferent (hn : T.follow? x path = some n)
    (hn' : S.follow? x path' = some n) : T.follow? x path' = some n := by
  cases hlost : T.follow? x path' with
  | some m => rw [← hn', h.follow hlost]
  | none =>
    -- the edge by which the first path comes to the node is the one that is gone
    obtain ⟨before, before', f, m, rfl, rfl, hm, hm', hf⟩ :=
      (h.lone_of_lost hn' hlost).1.exists_before (h.follow hn) hn'
    obtain ⟨k, hk, hkf⟩ := follow?_concat_eq_some.1 hn
    obtain rfl : k = m := Option.some.inj ((h.follow hk).symm.trans hm)
    cases hleft : T.follow? x before' with
    | some k' =>
      obtain rfl : k' = k := Option.some.inj ((h.follow hleft).symm.trans hm')
      rw [follow?_concat, hleft] at hlost
      exact absurd (hkf.symm.trans hlost) nofun
    | none =>
      have hgone := (h.lone_of_lost hm' hleft).2 f
      rw [hkf] at hgone
      cases hgone

/-- Of two paths that led to one node both are left, or both are gone and leave what is left at one
node, to go on with the same features. -/
theorem coreferent (hn : S.follow? x path = some n) (hn' : S.follow? x path' = some n) :
    T.follow? x path = some n ∧ T.follow? x path' = some n ∨
      T.follow? x path = none ∧ T.follow? x path' = none ∧
        ∃ stem stem' rest m, path = stem ++ rest ∧ path' = stem' ++ rest ∧
          T.follow? x stem = some m ∧ T.follow? x stem' = some m := by
  induction path using List.reverseRecOn generalizing path' n with
  | nil =>
    have hleft : T.follow? x [] = some n := hn
    exact .inl ⟨hleft, h.remains_of_coreferent hleft hn'⟩
  | append_singleton path f ih =>
    cases hlost : T.follow? x (path ++ [f]) with
    | some m =>
      obtain rfl : m = n := Option.some.inj ((h.follow hlost).symm.trans hn)
      exact .inl ⟨rfl, h.remains_of_coreferent hlost hn'⟩
    | none =>
      have hlost' : T.follow? x path' = none := by
        cases hleft : T.follow? x path' with
        | none => rfl
        | some m =>
          obtain rfl : m = n := Option.some.inj ((h.follow hleft).symm.trans hn')
          rw [h.remains_of_coreferent hleft hn] at hlost
          cases hlost
      refine .inr ⟨rfl, hlost', ?_⟩
      -- both paths end with the same feature, and what they lead to before is one node, too
      obtain ⟨before, before', f', m, heq, rfl, hm, hm', -⟩ :=
        (h.lone_of_lost hn hlost).1.exists_before hn hn'
      obtain ⟨rfl, heq'⟩ := List.append_inj' heq rfl
      obtain rfl : f = f' := by simpa using heq'
      rcases ih hm hm' with ⟨hleft, hleft'⟩ | ⟨-, -, stem, stem', rest, k, rfl, rfl, hk, hk'⟩
      · exact ⟨path, before', [f], m, rfl, rfl, hleft, hleft'⟩
      · exact ⟨stem, stem', rest ++ [f], k, by simp, by simp, hk, hk'⟩

end Thins

end FeatureLogic.Shape
