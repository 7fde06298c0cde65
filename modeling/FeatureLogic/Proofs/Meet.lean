import FeatureLogic.Proofs.Shape

/-!
Meets of structures. A structure to which those below several nodes can be mapped together, all
these nodes to one, is a bound of them (`Shape.Bound`). Their meet is the bound that can be mapped
to every other one (`Shape.Meet`). Meets are unique, and a meet that is met with one more structure
is the meet of all of them (`Shape.Meet.insert`): so the order in which structures are met does not
matter, nor whether the steps in between are copied.
-/

open Relation

namespace FeatureLogic.Shape

/-- The node is below one of the nodes of `A`. -/
def Below (S : Shape) (A : Set NodeId) (n : NodeId) : Prop := ∃ a ∈ A, S.Reach a n

/-- What is below `x` has no node in common with what is below the nodes of `A`. -/
def ApartFrom (S : Shape) (A : Set NodeId) (x : NodeId) : Prop := ∀ ⦃n⦄, S.Reach x n → ¬ S.Below A n

/-- The structure of `T` is that of `S` below `x`, node by node. -/
def Same (S : Shape) (x : NodeId) (T : Shape) : Prop :=
  ∀ ⦃n⦄, S.Reach x n → T.type n = S.type n ∧ T.value? n = S.value? n

/-- A map of the nodes below those of `A` to nodes of `T`, which maps the nodes of `A` to `y`. Nodes
come together in a node of a possible type only; so an impossible type is that of a node alone. -/
structure Bound (h : Hierarchy) (S : Shape) (A : Set NodeId) (T : Shape) (y : NodeId)
    (ν : NodeId → NodeId) : Prop where
  root : ∀ {a}, a ∈ A → ν a = y
  maps : ∀ {a}, a ∈ A → S.Maps h a T ν
  alone : ∀ {n}, S.Below A n → T.type (ν n) = .bottom →
    S.type n = .bottom ∧ ∀ {m}, S.Below A m → ν m = ν n → m = n

/-- A bound through which all others go: it has no other nodes than images, and it can be mapped to
every other bound. -/
structure Meet (h : Hierarchy) (S : Shape) (A : Set NodeId) (T : Shape) (y : NodeId)
    (ν : NodeId → NodeId) : Prop extends S.Bound h A T y ν where
  onto : ∀ {m}, T.Reach y m → ∃ n, S.Below A n ∧ ν n = m
  greatest : ∀ {U : Shape} {z : NodeId} {κ : NodeId → NodeId}, S.Bound h A U z κ →
    ∃ κ', T.Maps h y U κ' ∧ ∀ {n}, S.Below A n → κ' (ν n) = κ n

variable {h : Hierarchy} {S T U V R : Shape} {A B : Set NodeId} {x y z k n : NodeId}
  {μ ν κ ξ : NodeId → NodeId}

theorem below_self {a : NodeId} (ha : a ∈ A) : S.Below A a := ⟨a, ha, ReflTransGen.refl⟩

theorem Below.mono (hn : S.Below A n) (hAB : A ⊆ B) : S.Below B n := by
  obtain ⟨a, ha, hreach⟩ := hn
  exact ⟨a, hAB ha, hreach⟩

theorem below_singleton_iff : S.Below {x} n ↔ S.Reach x n := by
  simp [Below]

theorem below_insert_iff : S.Below (insert x A) n ↔ S.Reach x n ∨ S.Below A n := by
  simp [Below]

theorem apartFrom_singleton_iff : S.ApartFrom {x} y ↔ ∀ ⦃n⦄, S.Reach y n → ¬ S.Reach x n := by
  simp [ApartFrom, below_singleton_iff]

theorem apartFrom_insert_iff :
    S.ApartFrom (insert x A) y ↔ (∀ ⦃n⦄, S.Reach y n → ¬ S.Reach x n) ∧ S.ApartFrom A y := by
  simp only [ApartFrom, below_insert_iff, not_or]
  exact ⟨fun h => ⟨fun n hn => (h hn).1, fun n hn => (h hn).2⟩, fun h n hn => ⟨h.1 hn, h.2 hn⟩⟩

theorem Maps.congr (hμ : S.Maps h x T μ) (heq : ∀ {n}, S.Reach x n → ν n = μ n) :
    S.Maps h x T ν := by
  refine ⟨fun hn => ?_, fun hn hf => ?_⟩
  · rw [heq hn]
    exact hμ.type_le hn
  · rw [heq hn, heq (hn.value hf)]
    exact hμ.value hn hf

/-! ## The same structure -/

theorem Same.trans (hs : S.Same x T) (ht : T.Same x U) (hreach : ∀ {n}, S.Reach x n → T.Reach x n) :
    S.Same x U := fun _ hn =>
  ⟨(ht (hreach hn)).1.trans (hs hn).1, (ht (hreach hn)).2.trans (hs hn).2⟩

theorem Same.reach_iff (hs : S.Same x T) : T.Reach x n ↔ S.Reach x n := by
  constructor <;> intro hn
  · induction hn with
    | refl => exact ReflTransGen.refl
    | tail _ hstep ih =>
      obtain ⟨f, hf⟩ := hstep
      rw [(hs ih).2] at hf
      exact ih.value hf
  · induction hn with
    | refl => exact ReflTransGen.refl
    | tail hn hstep ih =>
      obtain ⟨f, hf⟩ := hstep
      rw [← (hs hn).2] at hf
      exact ih.value hf

theorem Same.maps_iff (hs : S.Same x V) : V.Maps h x T μ ↔ S.Maps h x T μ := by
  constructor
  · intro hμ
    refine ⟨fun hn => ?_, fun hn hf => ?_⟩
    · rw [← (hs hn).1]
      exact hμ.type_le (hs.reach_iff.2 hn)
    · rw [← (hs hn).2] at hf
      exact hμ.value (hs.reach_iff.2 hn) hf
  · intro hμ
    refine ⟨fun hn => ?_, fun hn hf => ?_⟩
    · rw [(hs (hs.reach_iff.1 hn)).1]
      exact hμ.type_le (hs.reach_iff.1 hn)
    · rw [(hs (hs.reach_iff.1 hn)).2] at hf
      exact hμ.value (hs.reach_iff.1 hn) hf

/-! ## Bounds and meets -/

/-- A bound of more structures is one of fewer. -/
theorem Bound.mono (hν : S.Bound h B T y ν) (hAB : A ⊆ B) : S.Bound h A T y ν where
  root ha := hν.root (hAB ha)
  maps ha := hν.maps (hAB ha)
  alone hn htype :=
    have h := hν.alone (hn.mono hAB) htype
    ⟨h.1, fun hm => h.2 (hm.mono hAB)⟩

/-- A structure is the meet of itself. -/
theorem meet_self (h : Hierarchy) (S : Shape) (x : NodeId) : S.Meet h {x} S x id where
  root ha := Set.mem_singleton_iff.1 ha
  maps _ := ⟨fun _ => Hierarchy.le_refl, fun _ hf => hf⟩
  alone _ htype := ⟨htype, fun _ heq => heq⟩
  onto hm := ⟨_, below_singleton_iff.2 hm, rfl⟩
  greatest hκ := ⟨_, hκ.maps (Set.mem_singleton x), fun _ => rfl⟩

theorem Meet.subsumes {a : NodeId} (hν : S.Meet h A T y ν) (ha : a ∈ A) (hκ : S.Bound h A U z κ) :
    T.Subsumes h y U z := by
  obtain ⟨κ', hmaps, heq⟩ := hν.greatest hκ
  refine ⟨κ', ?_, hmaps⟩
  rw [← hν.root ha, heq (below_self ha), hκ.root ha]

/-- Meets of the same structures are isomorphic. -/
theorem Meet.isomorphic {a : NodeId} (hs : h.Sound) (hν : S.Meet h A T y ν) (ha : a ∈ A)
    (hκ : S.Meet h A U z κ) : T.Isomorphic y U z :=
  isomorphic_of_subsumes hs (hν.subsumes ha hκ.toBound) (hκ.subsumes ha hν.toBound)

/-- What is isomorphic to a meet is a meet. -/
theorem Meet.of_isomorphic (hs : h.Sound) (hν : S.Meet h A T y ν) (hi : T.Isomorphic y U z) :
    ∃ ξ, S.Meet h A U z ξ := by
  obtain ⟨ψ, hy, hψ⟩ := hi.symm.subsumes h
  obtain ⟨φ, rfl, hinj, hφ⟩ := hi
  have hmaps : T.Maps h y U φ := by
    refine ⟨fun hn => ?_, fun hn hf => ?_⟩
    · rw [(hφ _ hn).1]
      exact Hierarchy.le_refl
    · rw [(hφ _ hn).2, hf]
      rfl
  -- to be mapped there and back is to stay
  have hback : ∀ {n}, T.Reach y n → ψ (φ n) = n := fun hn => (hmaps.comp hs hψ).eq_self hy hn
  have hreach : ∀ {n}, S.Below A n → T.Reach y (ν n) := by
    rintro n ⟨a, ha, hn⟩
    rw [← hν.root ha]
    exact (hν.maps ha).reach hn
  refine ⟨φ ∘ ν, ⟨fun ha => congrArg φ (hν.root ha), fun ha => ?_, fun hn htype => ?_⟩,
    fun hm => ?_, fun hκ => ?_⟩
  · exact (hν.maps ha).comp hs (hν.root ha ▸ hmaps)
  · rw [Function.comp_apply, (hφ _ (hreach hn)).1] at htype
    obtain ⟨hbottom, halone⟩ := hν.alone hn htype
    exact ⟨hbottom, fun hm heq => halone hm (hinj (hreach hm) (hreach hn) heq)⟩
  · obtain ⟨k, hk, rfl⟩ := exists_of_reach (fun n hn => (hφ n hn).2) hm
    obtain ⟨n, hn, rfl⟩ := hν.onto hk
    exact ⟨n, hn, rfl⟩
  · obtain ⟨κ', hκ', heq⟩ := hν.greatest hκ
    refine ⟨κ' ∘ ψ, hψ.comp hs (hy.symm ▸ hκ'), fun hn => ?_⟩
    rw [Function.comp_apply, Function.comp_apply, hback (hreach hn), heq hn]

/-! ## One more structure -/

section Insert

variable (hs : h.Sound) (hA : S.Meet h A V k μ) (hx : S.Same x V)
  (hapart : S.ApartFrom A x) (hapart' : ∀ {n}, V.Reach k n → ¬ V.Reach x n)
include hA

theorem Meet.reach (hn : S.Below A n) : V.Reach k (μ n) := by
  obtain ⟨a, ha, hn⟩ := hn
  rw [← hA.root ha]
  exact (hA.maps ha).reach hn

theorem Meet.nonempty : A.Nonempty := by
  obtain ⟨-, ⟨a, ha, -⟩, -⟩ := hA.onto ReflTransGen.refl
  exact ⟨a, ha⟩

include hx hapart hapart'

/-- A bound of all structures is one of the meet and the last structure. -/
theorem Meet.bound_pair (hU : S.Bound h (insert x A) U z κ) :
    ∃ κ', V.Bound h {k, x} U z κ' ∧ (∀ {n}, S.Below A n → κ' (μ n) = κ n) ∧
      ∀ {n}, S.Reach x n → κ' n = κ n := by
  classical
  obtain ⟨κ₁, hκ₁, hμκ⟩ := hA.greatest (hU.mono (Set.subset_insert x A))
  let κ' : NodeId → NodeId := fun n => if V.Reach x n then κ n else κ₁ n
  have hfirst : ∀ {n}, V.Reach k n → κ' n = κ₁ n := fun hn => if_neg (hapart' hn)
  have hlast : ∀ {n}, V.Reach x n → κ' n = κ n := fun hn => if_pos hn
  have hmet : ∀ {n}, S.Below A n → κ' (μ n) = κ n := fun hn => by rw [hfirst (hA.reach hn), hμκ hn]
  -- every node of the two structures stands for nodes of all, with the same images
  have hof : ∀ {p}, V.Below {k, x} p → ∃ n, κ' p = κ n ∧ S.Below (insert x A) n ∧
      h.Le (V.type p) (S.type n) ∧ ((S.Below A n ∧ μ n = p) ∨ (S.Reach x n ∧ n = p)) := by
    rintro p ⟨a, rfl | rfl, hp⟩
    · obtain ⟨n, hn, rfl⟩ := hA.onto hp
      obtain ⟨a, ha, hreach⟩ := id hn
      exact ⟨n, hmet hn, below_insert_iff.2 (.inr hn), (hA.maps ha).type_le hreach,
        .inl ⟨hn, rfl⟩⟩
    · have hp' := hx.reach_iff.1 hp
      refine ⟨p, hlast hp, below_insert_iff.2 (.inl hp'), ?_, .inr ⟨hp', rfl⟩⟩
      rw [(hx hp').1]
      exact Hierarchy.le_refl
  refine ⟨κ', ⟨?_, ?_, ?_⟩, hmet, fun hn => hlast (hx.reach_iff.2 hn)⟩
  · rintro a (rfl | rfl)
    · obtain ⟨a, ha⟩ := hA.nonempty
      rw [← hA.root ha, hmet (below_self ha), hU.root (Set.mem_insert_of_mem _ ha)]
    · rw [hlast ReflTransGen.refl, hU.root (Set.mem_insert ..)]
  · rintro a (rfl | rfl)
    · exact hκ₁.congr hfirst
    · exact (hx.maps_iff.2 (hU.maps (Set.mem_insert ..))).congr hlast
  · intro p hp htype
    obtain ⟨n, heq, hn, hle, hof'⟩ := hof hp
    rw [heq] at htype
    obtain ⟨hbottom, halone⟩ := hU.alone hn htype
    rw [hbottom, Hierarchy.le_bottom_iff] at hle
    refine ⟨hle, fun {q} hq hqp => ?_⟩
    obtain ⟨m, heq', hm, -, hof''⟩ := hof hq
    obtain rfl := halone hm (by rw [← heq', hqp, heq])
    rcases hof' with ⟨hn, rfl⟩ | ⟨hn, rfl⟩ <;> rcases hof'' with ⟨hm, rfl⟩ | ⟨hm, rfl⟩
    · rfl
    · exact absurd hn (hapart hm)
    · exact absurd hm (hapart hn)
    · rfl

include hs

/-- The meet of a meet and one more structure is the meet of all. -/
theorem Meet.insert (hR : V.Meet h {k, x} R y ν) (hold : ∀ {n}, S.Below A n → ξ n = ν (μ n))
    (hlast : ∀ {n}, S.Reach x n → ξ n = ν n) : S.Meet h (insert x A) R y ξ := by
  have hk : k ∈ ({k, x} : Set NodeId) := Set.mem_insert ..
  have hx' : x ∈ ({k, x} : Set NodeId) := Set.mem_insert_of_mem _ rfl
  have hbelow : ∀ {n}, V.Reach x n → V.Below {k, x} n := fun hn => ⟨x, hx', hn⟩
  have hbelow' : ∀ {n}, S.Below A n → V.Below {k, x} (μ n) := fun hn => ⟨k, hk, hA.reach hn⟩
  refine ⟨⟨?_, ?_, ?_⟩, fun {m} hm => ?_, fun hU => ?_⟩
  · rintro a (rfl | ha)
    · rw [hlast ReflTransGen.refl, hR.root hx']
    · rw [hold (below_self ha), hA.root ha, hR.root hk]
  · rintro a (rfl | ha)
    · exact (hx.maps_iff.1 (hR.maps hx')).congr hlast
    · have hmaps := (hA.maps ha).comp hs (hA.root ha ▸ hR.maps hk)
      exact hmaps.congr fun hn => hold ⟨a, ha, hn⟩
  · intro n hn htype
    rcases below_insert_iff.1 hn with hn | hn
    · -- an impossible node of the last structure stands alone, there and among the others
      rw [hlast hn] at htype
      obtain ⟨hbottom, halone⟩ := hR.alone (hbelow (hx.reach_iff.2 hn)) htype
      refine ⟨(hx hn).1 ▸ hbottom, fun {m} hm heq => ?_⟩
      rcases below_insert_iff.1 hm with hm | hm
      · rw [hlast hm, hlast hn] at heq
        exact halone (hbelow (hx.reach_iff.2 hm)) heq
      · rw [hold hm, hlast hn] at heq
        have hmn := halone (hbelow' hm) heq
        exact absurd (hx.reach_iff.2 hn) (hapart' (hmn ▸ hA.reach hm))
    · rw [hold hn] at htype
      obtain ⟨hbottom, halone⟩ := hR.alone (hbelow' hn) htype
      -- what it stands for was impossible in the first meet already
      obtain ⟨hbottom', halone'⟩ := hA.alone hn hbottom
      refine ⟨hbottom', fun {m} hm heq => ?_⟩
      rcases below_insert_iff.1 hm with hm | hm
      · rw [hlast hm, hold hn] at heq
        have hmn := halone (hbelow (hx.reach_iff.2 hm)) heq
        exact absurd (hx.reach_iff.2 hm) (hapart' (hmn ▸ hA.reach hn))
      · rw [hold hm, hold hn] at heq
        exact halone' hm (halone (hbelow' hm) heq)
  · obtain ⟨p, ⟨a, ha, hp⟩, rfl⟩ := hR.onto hm
    rcases ha with rfl | rfl
    · obtain ⟨n, hn, rfl⟩ := hA.onto hp
      exact ⟨n, below_insert_iff.2 (.inr hn), hold hn⟩
    · have hp' := hx.reach_iff.1 hp
      exact ⟨p, below_insert_iff.2 (.inl hp'), hlast hp'⟩
  · -- a bound of all is one of the two, so it lies below their meet
    obtain ⟨κ', hκ', hmet, hlast'⟩ := hA.bound_pair hx hapart hapart' hU
    obtain ⟨κ'', hmaps, heq⟩ := hR.greatest hκ'
    refine ⟨κ'', hmaps, fun hn => ?_⟩
    rcases below_insert_iff.1 hn with hn | hn
    · rw [hlast hn, heq (hbelow (hx.reach_iff.2 hn)), hlast' hn]
    · rw [hold hn, heq (hbelow' hn), hmet hn]

end Insert

end FeatureLogic.Shape
