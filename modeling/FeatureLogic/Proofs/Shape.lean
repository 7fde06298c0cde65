import Mathlib.Data.Set.Function
import FeatureLogic.Proofs.Lattice.Meet

/-!
Shapes: typed nodes with values of features, as committed structure and the structure of an episode
both have them. One structure subsumes another when its nodes can be mapped to those of the other
(`Shape.Subsumes`); two structures that subsume each other are isomorphic.
-/

open Relation

namespace FeatureLogic

/-- Typed nodes with the values of their features. -/
structure Shape where
  type : NodeId → TypeId
  value? : NodeId → FeatureId → Option NodeId

namespace Shape

/-- The second node is the value of a feature of the first. -/
def Step (S : Shape) (n m : NodeId) : Prop := ∃ f, S.value? n f = some m

/-- The second node is below the first. -/
def Reach (S : Shape) : NodeId → NodeId → Prop := ReflTransGen S.Step

/-- No way down from a node below `x` leads back to that node. -/
def Acyclic (S : Shape) (x : NodeId) : Prop := ∀ ⦃n⦄, S.Reach x n → ¬ TransGen S.Step n n

theorem Reach.value {S : Shape} {x n m : NodeId} {f : FeatureId} (h : S.Reach x n)
    (hv : S.value? n f = some m) : S.Reach x m :=
  h.tail ⟨f, hv⟩

/-- Nothing is below a node without features but the node itself. -/
theorem Reach.eq_of_leaf {S : Shape} {x n : NodeId} (h : S.Reach x n)
    (hleaf : ∀ f, S.value? x f = none) : n = x := by
  rcases ReflTransGen.cases_head h with heq | ⟨m, ⟨f, hf⟩, -⟩
  · exact heq.symm
  · rw [hleaf] at hf
    cases hf

theorem acyclic_of_leaf {S : Shape} {x : NodeId} (hleaf : ∀ f, S.value? x f = none) :
    S.Acyclic x := by
  intro n hn hcycle
  obtain rfl := hn.eq_of_leaf hleaf
  obtain ⟨m, ⟨f, hf⟩, -⟩ := TransGen.head'_iff.1 hcycle
  rw [hleaf] at hf
  cases hf

/-- There is no way back where all ways lead to greater numbers. -/
theorem acyclic_of_lt {S : Shape} {x : NodeId}
    (h : ∀ ⦃n m⦄, S.Reach x n → S.Step n m → n < m) : S.Acyclic x := by
  have hlt : ∀ {n m}, S.Reach x n → TransGen S.Step n m → n < m := by
    intro n m hn hnm
    induction hnm with
    | single hs => exact h hn hs
    | tail hnk hs ih => exact Nat.lt_trans ih (h (hn.trans hnk.to_reflTransGen) hs)
  exact fun n hn hcycle => Nat.lt_irrefl n (hlt hn hcycle)

/-! ## Maps -/

/-- A map of the nodes below `x` to nodes of `T` that keeps values and makes types at most more
specific. -/
structure Maps (h : Hierarchy) (S : Shape) (x : NodeId) (T : Shape) (μ : NodeId → NodeId) :
    Prop where
  type_le : ∀ {n}, S.Reach x n → h.Le (T.type (μ n)) (S.type n)
  value : ∀ {n f m}, S.Reach x n → S.value? n f = some m → T.value? (μ n) f = some (μ m)

/-- The structure below `x` subsumes that below `y`. -/
def Subsumes (h : Hierarchy) (S : Shape) (x : NodeId) (T : Shape) (y : NodeId) : Prop :=
  ∃ μ, μ x = y ∧ S.Maps h x T μ

section Maps

variable {h : Hierarchy} {S T U : Shape} {x y z n m : NodeId} {μ ν : NodeId → NodeId}

theorem Maps.below (hμ : S.Maps h x T μ) (hn : S.Reach x n) : S.Maps h n T μ :=
  ⟨fun hm => hμ.type_le (hn.trans hm), fun hm => hμ.value (hn.trans hm)⟩

theorem Maps.step (hμ : S.Maps h x T μ) (hn : S.Reach x n) (hs : S.Step n m) :
    T.Step (μ n) (μ m) := by
  obtain ⟨f, hf⟩ := hs
  exact ⟨f, hμ.value hn hf⟩

theorem Maps.reach (hμ : S.Maps h x T μ) (hn : S.Reach x n) : T.Reach (μ x) (μ n) := by
  induction hn with
  | refl => exact ReflTransGen.refl
  | tail hn hs ih => exact ih.tail (hμ.step hn hs)

theorem Maps.transGen (hμ : S.Maps h x T μ) (hn : S.Reach x n) (hs : TransGen S.Step n m) :
    TransGen T.Step (μ n) (μ m) := by
  induction hs with
  | single hs => exact .single (hμ.step hn hs)
  | tail hnm hs ih => exact ih.tail (hμ.step (hn.trans hnm.to_reflTransGen) hs)

/-- A map of a structure to itself that keeps the root keeps every node, as values are unique. -/
theorem Maps.eq_self (hμ : S.Maps h x S μ) (hx : μ x = x) (hn : S.Reach x n) : μ n = n := by
  induction hn with
  | refl => exact hx
  | tail hn hs ih =>
    obtain ⟨f, hf⟩ := hs
    have hvalue := hμ.value hn hf
    rw [ih, hf] at hvalue
    exact (Option.some.inj hvalue).symm

/-- What maps to a structure without cycles has none. -/
theorem Maps.acyclic (hμ : S.Maps h x T μ) (ht : T.Acyclic (μ x)) : S.Acyclic x :=
  fun _ hn hs => ht (hμ.reach hn) (hμ.transGen hn hs)

theorem Maps.comp (hs : h.Sound) (hμ : S.Maps h x T μ) (hν : T.Maps h (μ x) U ν) :
    S.Maps h x U (ν ∘ μ) :=
  ⟨fun hn => hs.le_trans (hν.type_le (hμ.reach hn)) (hμ.type_le hn),
    fun hn hf => hν.value (hμ.reach hn) (hμ.value hn hf)⟩

theorem Subsumes.trans (hs : h.Sound) (hst : S.Subsumes h x T y) (htu : T.Subsumes h y U z) :
    S.Subsumes h x U z := by
  obtain ⟨μ, rfl, hμ⟩ := hst
  obtain ⟨ν, rfl, hν⟩ := htu
  exact ⟨ν ∘ μ, rfl, hμ.comp hs hν⟩

theorem Subsumes.refl (h : Hierarchy) (S : Shape) (x : NodeId) : S.Subsumes h x S x :=
  ⟨id, rfl, fun _ => Hierarchy.le_refl, fun _ hf => hf⟩

theorem Subsumes.acyclic (hst : S.Subsumes h x T y) (ht : T.Acyclic y) : S.Acyclic x := by
  obtain ⟨μ, rfl, hμ⟩ := hst
  exact hμ.acyclic ht

/-- Two maps of structures that have no node in common, as one. -/
theorem exists_maps_of_apart (hapart : ∀ n, S.Reach x n → ¬ S.Reach y n)
    (hleft : S.Subsumes h x T z) (hright : S.Subsumes h y T z) :
    ∃ μ, S.Maps h x T μ ∧ S.Maps h y T μ ∧ μ x = z ∧ μ x = μ y := by
  classical
  obtain ⟨μ, hx, hμ⟩ := hleft
  obtain ⟨ν, hy, hν⟩ := hright
  have hfirst : ∀ {n}, S.Reach x n → (if S.Reach x n then μ n else ν n) = μ n :=
    fun hn => if_pos hn
  have hsecond : ∀ {n}, S.Reach y n → (if S.Reach x n then μ n else ν n) = ν n :=
    fun hn => if_neg fun hn' => hapart _ hn' hn
  have hroot := (hfirst ReflTransGen.refl).trans hx
  refine ⟨fun n => if S.Reach x n then μ n else ν n, ⟨fun hn => ?_, fun hn hf => ?_⟩,
    ⟨fun hn => ?_, fun hn hf => ?_⟩, hroot, ?_⟩
  · rw [hfirst hn]
    exact hμ.type_le hn
  · rw [hfirst hn, hfirst (hn.value hf)]
    exact hμ.value hn hf
  · rw [hsecond hn]
    exact hν.type_le hn
  · rw [hsecond hn, hsecond (hn.value hf)]
    exact hν.value hn hf
  · exact hroot.trans (((hsecond ReflTransGen.refl).trans hy).symm)

end Maps

/-- Two structures have the same types and values at the nodes below `size`. -/
structure Agrees (S T : Shape) (size : Nat) : Prop where
  type_eq : ∀ {n : Nat}, n < size → T.type n = S.type n
  value_eq : ∀ {n : Nat}, n < size → T.value? n = S.value? n

theorem Agrees.refl (S : Shape) (size : Nat) : S.Agrees S size := ⟨fun _ => rfl, fun _ => rfl⟩

theorem Agrees.trans {S T U : Shape} {size size' : Nat} (h : S.Agrees T size)
    (h' : T.Agrees U size') (hsize : size ≤ size') : S.Agrees U size where
  type_eq hn := (h'.type_eq (Nat.lt_of_lt_of_le hn hsize)).trans (h.type_eq hn)
  value_eq hn := (h'.value_eq (Nat.lt_of_lt_of_le hn hsize)).trans (h.value_eq hn)

/-! ## Isomorphy -/

/-- The structures below `x` and `y` differ in the numbers of their nodes only. -/
def Isomorphic (S : Shape) (x : NodeId) (T : Shape) (y : NodeId) : Prop :=
  ∃ μ : NodeId → NodeId, μ x = y ∧ Set.InjOn μ {n | S.Reach x n} ∧
    ∀ n, S.Reach x n → T.type (μ n) = S.type n ∧ ∀ f, T.value? (μ n) f = (S.value? n f).map μ

section Isomorphic

variable {h : Hierarchy} {S T U : Shape} {x y z : NodeId}

theorem Isomorphic.subsumes (hi : S.Isomorphic x T y) (h : Hierarchy) : S.Subsumes h x T y := by
  obtain ⟨μ, hx, -, hμ⟩ := hi
  refine ⟨μ, hx, fun hn => ?_, fun hn hf => ?_⟩
  · rw [(hμ _ hn).1]
    exact Hierarchy.le_refl
  · rw [(hμ _ hn).2, hf]
    rfl

theorem reach_of_value {μ : NodeId → NodeId}
    (hμ : ∀ n, S.Reach x n → ∀ f, T.value? (μ n) f = (S.value? n f).map μ) {n : NodeId}
    (hn : S.Reach x n) : T.Reach (μ x) (μ n) := by
  induction hn with
  | refl => exact ReflTransGen.refl
  | tail hn hs ih =>
    obtain ⟨f, hf⟩ := hs
    refine ih.value (f := f) ?_
    rw [hμ _ hn, hf]
    rfl

/-- Every node below the second root is the image of one below the first. -/
theorem exists_of_reach {μ : NodeId → NodeId}
    (hμ : ∀ n, S.Reach x n → ∀ f, T.value? (μ n) f = (S.value? n f).map μ) {m : NodeId}
    (hm : T.Reach (μ x) m) : ∃ n, S.Reach x n ∧ μ n = m := by
  induction hm with
  | refl => exact ⟨x, ReflTransGen.refl, rfl⟩
  | tail _ hs ih =>
    obtain ⟨n, hn, rfl⟩ := ih
    obtain ⟨f, hf⟩ := hs
    rw [hμ n hn f, Option.map_eq_some_iff] at hf
    obtain ⟨k, hk, rfl⟩ := hf
    exact ⟨k, hn.value hk, rfl⟩

theorem Isomorphic.symm (hi : S.Isomorphic x T y) : T.Isomorphic y S x := by
  obtain ⟨μ, rfl, hinj, hμ⟩ := hi
  classical
  have hback : ∀ m, T.Reach (μ x) m → ∃ n, S.Reach x n ∧ μ n = m :=
    fun m => exists_of_reach fun n hn => (hμ n hn).2
  choose! ν hν using hback
  have hinv : ∀ n, S.Reach x n → ν (μ n) = n := by
    intro n hn
    have hreach := reach_of_value (fun n hn => (hμ n hn).2) hn
    exact hinj (hν _ hreach).1 hn (hν _ hreach).2
  refine ⟨ν, hinv x ReflTransGen.refl, ?_, ?_⟩
  · intro m hm m' hm' heq
    rw [← (hν m hm).2, ← (hν m' hm').2, heq]
  · intro m hm
    obtain ⟨hn, heq⟩ := hν m hm
    have htype := (hμ _ hn).1
    rw [heq] at htype
    refine ⟨htype.symm, fun f => ?_⟩
    have hvalue := (hμ _ hn).2 f
    rw [heq] at hvalue
    rw [hvalue]
    cases hf : S.value? (ν m) f with
    | none => rfl
    | some k => simp [hinv k (hn.value hf)]

theorem Isomorphic.trans (hst : S.Isomorphic x T y) (htu : T.Isomorphic y U z) :
    S.Isomorphic x U z := by
  obtain ⟨μ, rfl, hinj, hμ⟩ := hst
  obtain ⟨ν, rfl, hinj', hν⟩ := htu
  have hreach : ∀ n, S.Reach x n → T.Reach (μ x) (μ n) :=
    fun n hn => reach_of_value (fun n hn => (hμ n hn).2) hn
  refine ⟨ν ∘ μ, rfl, ?_, fun n hn => ?_⟩
  · intro n hn m hm heq
    exact hinj hn hm (hinj' (hreach n hn) (hreach m hm) heq)
  · refine ⟨((hν _ (hreach n hn)).1).trans (hμ n hn).1, fun f => ?_⟩
    rw [Function.comp_apply, (hν _ (hreach n hn)).2, (hμ n hn).2, Option.map_map]

/-- Each node of an isomorphic structure has a counterpart, and so has what is below it. -/
theorem Isomorphic.exists_below (hi : S.Isomorphic x T y) {m : NodeId} (hm : T.Reach y m) :
    ∃ n, S.Reach x n ∧ S.Isomorphic n T m := by
  obtain ⟨μ, rfl, hinj, hμ⟩ := hi
  obtain ⟨n, hn, rfl⟩ := exists_of_reach (fun n hn => (hμ n hn).2) hm
  exact ⟨n, hn, μ, rfl, hinj.mono fun k hk => hn.trans hk, fun k hk => hμ k (hn.trans hk)⟩

/-- Structures that subsume each other are isomorphic: the maps back and forth undo each other, as
they keep the roots and the values. -/
theorem isomorphic_of_subsumes (hs : h.Sound) (hst : S.Subsumes h x T y)
    (hts : T.Subsumes h y S x) : S.Isomorphic x T y := by
  obtain ⟨μ, rfl, hμ⟩ := hst
  obtain ⟨ν, hx, hν⟩ := hts
  have hinv : ∀ {n}, S.Reach x n → ν (μ n) = n := fun hn => (hμ.comp hs hν).eq_self hx hn
  refine ⟨μ, rfl, ?_, fun n hn => ⟨?_, fun f => ?_⟩⟩
  · intro n hn m hm heq
    rw [← hinv hn, ← hinv hm, heq]
  · refine hs.le_antisymm (hμ.type_le hn) ?_
    have := hν.type_le (hμ.reach hn)
    rwa [hinv hn] at this
  · cases hf : S.value? n f with
    | some m => exact hμ.value hn hf
    | none =>
      cases hg : T.value? (μ n) f with
      | none => rfl
      | some m =>
        have := hν.value (hμ.reach hn) hg
        rw [hinv hn, hf] at this
        cases this

/-! ## Paths -/

/-- The node at the end of a path. -/
def follow? (S : Shape) (x : NodeId) (path : List FeatureId) : Option NodeId :=
  path.foldlM S.value? x

theorem reach_of_follow {path : List FeatureId} {n : NodeId} (hn : S.follow? x path = some n) :
    S.Reach x n := by
  induction path generalizing x with
  | nil =>
    cases hn
    exact ReflTransGen.refl
  | cons f rest ih =>
    obtain ⟨m, hm, hrest⟩ := Option.bind_eq_some_iff.1 hn
    exact (ih hrest).head ⟨f, hm⟩

/-- Paths are kept by maps. -/
theorem Maps.follow {μ : NodeId → NodeId} (hμ : S.Maps h x T μ) {path : List FeatureId}
    {n : NodeId} (hn : S.follow? x path = some n) :
    T.follow? (μ x) path = some (μ n) ∧ h.Le (T.type (μ n)) (S.type n) := by
  induction path generalizing x with
  | nil =>
    cases hn
    exact ⟨rfl, hμ.type_le ReflTransGen.refl⟩
  | cons f rest ih =>
    obtain ⟨m, hm, hrest⟩ := Option.bind_eq_some_iff.1 hn
    obtain ⟨hfollow, htype⟩ := ih (hμ.below (.single ⟨f, hm⟩)) hrest
    exact ⟨Option.bind_eq_some_iff.2 ⟨μ m, hμ.value ReflTransGen.refl hm, hfollow⟩, htype⟩

theorem follow_map {μ : NodeId → NodeId}
    (hμ : ∀ n, S.Reach x n → ∀ f, T.value? (μ n) f = (S.value? n f).map μ)
    (path : List FeatureId) : T.follow? (μ x) path = (S.follow? x path).map μ := by
  induction path generalizing x with
  | nil => rfl
  | cons f rest ih =>
    simp only [follow?, List.foldlM_cons, hμ x ReflTransGen.refl]
    cases hf : S.value? x f with
    | none => rfl
    | some m => exact ih fun n hn => hμ n (hn.head ⟨f, hf⟩)

/-- Isomorphic structures have the same paths with the same types at their ends, and two paths end
at one node in both or in neither. -/
theorem Isomorphic.follow (hi : S.Isomorphic x T y) (path path' : List FeatureId) :
    (T.follow? y path).map T.type = (S.follow? x path).map S.type ∧
      (T.follow? y path = T.follow? y path' ↔ S.follow? x path = S.follow? x path') := by
  obtain ⟨μ, rfl, hinj, hμ⟩ := hi
  have hvalue := fun n hn => (hμ n hn).2
  rw [follow_map hvalue path, follow_map hvalue path']
  refine ⟨?_, fun heq => ?_, fun heq => by rw [heq]⟩
  · rw [Option.map_map]
    exact Option.map_congr fun n hn => (hμ n (reach_of_follow hn)).1
  · cases hp : S.follow? x path with
    | none =>
      rw [hp] at heq
      exact (Option.map_eq_none_iff.1 heq.symm).symm
    | some n =>
      rw [hp] at heq
      obtain ⟨m, hm, hnm⟩ := Option.map_eq_some_iff.1 heq.symm
      rw [hm, hinj (reach_of_follow hm) (reach_of_follow hp) hnm]

end Isomorphic

end Shape

end FeatureLogic
