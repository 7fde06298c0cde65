import FeatureLogic.Proofs.Unify.Laws
import FeatureLogic.Proofs.Unify.Meeting

/-!
Congruences. To unify two nodes is to close over what has to be one node with them: the values of a
feature that two related nodes have are related as well (`Shape.Congruent`). Where no prototype has
features, unification succeeds if and only if the types of all nodes that are related have a common
lower bound (`Session.unifiable_iff_congruent`).
-/

open Relation

namespace FeatureLogic

namespace Shape

/-- The least equivalence of the nodes below `a` and `b` that relates `a` to `b`, and the values of a
feature that two related nodes have. -/
inductive Congruent (S : Shape) (a b : NodeId) : NodeId → NodeId → Prop
  | roots : Congruent S a b a b
  | refl {n : NodeId} (hn : S.Below {a, b} n) : Congruent S a b n n
  | symm {n m : NodeId} (h : Congruent S a b n m) : Congruent S a b m n
  | trans {n m k : NodeId} (h : Congruent S a b n m) (h' : Congruent S a b m k) : Congruent S a b n k
  | value {n m n' m' : NodeId} {f : FeatureId} (h : Congruent S a b n m)
    (hn : S.value? n f = some n') (hm : S.value? m f = some m') : Congruent S a b n' m'

/-- The types of the nodes that `n` is related to have a common lower bound other than `bottom`. -/
def Reconcilable (h : Hierarchy) (S : Shape) (a b n : NodeId) : Prop :=
  ∃ t ≠ TypeId.bottom, ∀ m, S.Congruent a b n m → h.Le t (S.type m)

variable {h : Hierarchy} {S T : Shape} {a b n m y : NodeId} {ν : NodeId → NodeId}

theorem Below.value {A : Set NodeId} (hn : S.Below A n) {f : FeatureId}
    (hf : S.value? n f = some m) : S.Below A m := by
  obtain ⟨x, hx, hreach⟩ := hn
  exact ⟨x, hx, hreach.value hf⟩

theorem Congruent.below_both (hnm : S.Congruent a b n m) : S.Below {a, b} n ∧ S.Below {a, b} m := by
  induction hnm with
  | roots => exact ⟨below_self (Set.mem_insert ..), below_self (Set.mem_insert_of_mem _ rfl)⟩
  | refl hn => exact ⟨hn, hn⟩
  | symm _ ih => exact ih.symm
  | trans _ _ ih ih' => exact ⟨ih.1, ih'.2⟩
  | value _ hn hm ih => exact ⟨ih.1.value hn, ih.2.value hm⟩

/-- A node that is related to no other one has its own type to agree with. -/
theorem forall_reconcilable_iff (htype : ∀ n, S.Below {a, b} n → S.type n ≠ .bottom) :
    (∀ n, S.Below {a, b} n → S.Reconcilable h a b n) ↔
      ∀ n m, m ≠ n → S.Congruent a b n m → S.Reconcilable h a b n := by
  refine ⟨fun hall n m _ hnm => hall n hnm.below_both.1, fun hall n hn => ?_⟩
  by_cases hother : ∃ m, m ≠ n ∧ S.Congruent a b n m
  · obtain ⟨m, hne, hnm⟩ := hother
    exact hall n m hne hnm
  · refine ⟨S.type n, htype n hn, fun m hnm => ?_⟩
    have heq : m = n := by
      by_contra hne
      exact hother ⟨m, hne, hnm⟩
    rw [heq]
    exact Hierarchy.le_refl

/-! ## From bounds to congruences -/

/-- A map to a bound has one image for nodes that are related. -/
theorem Bound.eq_of_congruent (hν : S.Bound h {a, b} T y ν) (hnm : S.Congruent a b n m) :
    ν n = ν m := by
  have hvalue : ∀ {n f n'}, S.Below {a, b} n → S.value? n f = some n' →
      T.value? (ν n) f = some (ν n') := by
    rintro n f n' ⟨x, hx, hreach⟩ hf
    exact (hν.maps hx).value hreach hf
  induction hnm with
  | roots => exact (hν.root (Set.mem_insert ..)).trans (hν.root (Set.mem_insert_of_mem _ rfl)).symm
  | refl => rfl
  | symm _ ih => exact ih.symm
  | trans _ _ ih ih' => exact ih.trans ih'
  | value hnm hn hm ih =>
    have hfirst := hvalue hnm.below_both.1 hn
    have hsecond := hvalue hnm.below_both.2 hm
    rw [ih, hsecond] at hfirst
    exact (Option.some.inj hfirst).symm

/-- In a bound the types of nodes that are related meet. -/
theorem Bound.reconcilable (hν : S.Bound h {a, b} T y ν) (hne : m ≠ n)
    (hnm : S.Congruent a b n m) : S.Reconcilable h a b n := by
  refine ⟨T.type (ν n), fun htype => ?_, fun k hnk => ?_⟩
  · exact hne ((hν.alone hnm.below_both.1 htype).2 hnm.below_both.2 (hν.eq_of_congruent hnm).symm)
  · obtain ⟨x, hx, hreach⟩ := hnk.below_both.2
    rw [hν.eq_of_congruent hnk]
    exact (hν.maps hx).type_le hreach

/-! ## From congruences to bounds -/

section Quotient

/-- One node of each class of nodes that are related. -/
noncomputable def delegate (S : Shape) (a b n : NodeId) : NodeId :=
  Classical.epsilon (S.Congruent a b n)

open Classical in
/-- Classes as nodes: a class has a common lower bound of its types as its type, and the features
that any of its nodes has. -/
noncomputable def quotient (h : Hierarchy) (S : Shape) (a b : NodeId) : Shape where
  type k := if hk : (∃ m, m ≠ k ∧ S.Congruent a b k m) ∧ S.Reconcilable h a b k
    then Classical.choose hk.2 else S.type k
  value? k f := if hk : ∃ p : NodeId × NodeId, S.Congruent a b k p.1 ∧ S.value? p.1 f = some p.2
    then some (S.delegate a b (Classical.choose hk).2) else none

theorem congruent_delegate (hn : S.Below {a, b} n) : S.Congruent a b n (S.delegate a b n) :=
  Classical.epsilon_spec ⟨n, .refl hn⟩

theorem delegate_eq_iff (hn : S.Below {a, b} n) (hm : S.Below {a, b} m) :
    S.delegate a b n = S.delegate a b m ↔ S.Congruent a b n m := by
  constructor
  · intro heq
    exact (congruent_delegate hn).trans (heq ▸ (congruent_delegate hm).symm)
  · intro hnm
    have hsame : S.Congruent a b n = S.Congruent a b m :=
      funext fun k => propext ⟨fun hk => hnm.symm.trans hk, fun hk => hnm.trans hk⟩
    rw [delegate, hsame, delegate]

/-- Values of a class are those of any of its nodes. -/
theorem value?_quotient {f : FeatureId} (hn : S.Below {a, b} n) (hf : S.value? n f = some m) :
    (quotient h S a b).value? (S.delegate a b n) f = some (S.delegate a b m) := by
  have hself := (congruent_delegate hn).symm
  have hvalue : ∃ p : NodeId × NodeId,
      S.Congruent a b (S.delegate a b n) p.1 ∧ S.value? p.1 f = some p.2 := ⟨(n, m), hself, hf⟩
  obtain ⟨hclass, hvalue'⟩ := Classical.choose_spec hvalue
  have hboth : S.Congruent a b m (Classical.choose hvalue).2 :=
    .value (hself.symm.trans hclass) hf hvalue'
  simp only [quotient, dif_pos hvalue]
  exact congrArg some ((delegate_eq_iff hboth.below_both.1 hboth.below_both.2).2 hboth).symm

variable (hall : ∀ n m, m ≠ n → S.Congruent a b n m → S.Reconcilable h a b n)
include hall

theorem type_quotient_le (hn : S.Below {a, b} n) :
    h.Le ((quotient h S a b).type (S.delegate a b n)) (S.type n) := by
  have hself := (congruent_delegate hn).symm
  by_cases hk : ∃ m, m ≠ S.delegate a b n ∧ S.Congruent a b (S.delegate a b n) m
  · obtain ⟨m, hne, hm⟩ := id hk
    have hmeet := hall _ _ hne hm
    simp only [quotient, dif_pos (And.intro hk hmeet)]
    exact (Classical.choose_spec hmeet).2 n hself
  · have heq : n = S.delegate a b n := by
      by_contra hne
      exact hk ⟨n, hne, hself⟩
    simp only [quotient, hk, false_and, dite_false]
    rw [← heq]
    exact Hierarchy.le_refl

/-- Only a class of one node can have the type `bottom`. -/
theorem alone_of_type_quotient (hn : S.Below {a, b} n)
    (htype : (quotient h S a b).type (S.delegate a b n) = .bottom) :
    S.type n = .bottom ∧ ∀ {m}, S.Congruent a b n m → m = n := by
  have hself := congruent_delegate hn
  have halone : ∀ {m}, S.Congruent a b (S.delegate a b n) m → m = S.delegate a b n := by
    intro m hm
    by_contra hne
    have hk : (∃ m, m ≠ S.delegate a b n ∧ S.Congruent a b (S.delegate a b n) m) ∧
        S.Reconcilable h a b (S.delegate a b n) := ⟨⟨m, hne, hm⟩, hall _ _ hne hm⟩
    simp only [quotient, dif_pos hk] at htype
    exact (Classical.choose_spec hk.2).1 htype
  have heq : n = S.delegate a b n := halone hself.symm
  refine ⟨?_, fun hm => ?_⟩
  · rw [heq, ← htype]
    have hk : ¬ ∃ m, m ≠ S.delegate a b n ∧ S.Congruent a b (S.delegate a b n) m :=
      fun ⟨_, hne, hm⟩ => hne (halone hm)
    simp only [quotient, hk, false_and, dite_false]
  · exact (halone (hself.symm.trans hm)).trans heq.symm

/-- Where the types of all classes meet, the classes are a bound of both structures. -/
theorem bound_quotient :
    S.Bound h {a, b} (quotient h S a b) (S.delegate a b a) (S.delegate a b) := by
  have ha : S.Below {a, b} a := below_self (Set.mem_insert ..)
  have hb : S.Below {a, b} b := below_self (Set.mem_insert_of_mem _ rfl)
  refine ⟨?_, fun {x} hx => ⟨fun hn => ?_, fun hn hf => ?_⟩, fun {n} hn htype => ?_⟩
  · rintro x (rfl | rfl)
    · rfl
    · exact ((delegate_eq_iff ha hb).2 .roots).symm
  · exact type_quotient_le hall ⟨x, hx, hn⟩
  · exact value?_quotient ⟨x, hx, hn⟩ hf
  · obtain ⟨hbottom, halone⟩ := alone_of_type_quotient hall hn htype
    exact ⟨hbottom, fun hm heq => halone ((delegate_eq_iff hn hm).1 heq.symm)⟩

end Quotient

end Shape

namespace Session

/-- Where no prototype has features, it comes to an end whether two nodes unify, also when their
structures have cycles or nodes in common. They do if and only if the types of any two or more nodes
that come together in the least congruence have a common lower bound other than `bottom`. Where no
node has the type `bottom`, nodes that stay alone make no difference. -/
theorem unifiable_iff_congruent {s : Session} (hs : s.Sound) (hr : s.AtRest) {a b : Nat}
    (ha : a < s.graph.size) (hb : b < s.graph.size)
    (hproto : ∀ t, s.grammar.featuredPrototype? t = none) :
    ∃ fuel answer s', (∀ budget ≥ fuel, s.unifiable budget a b = some (answer, s')) ∧
      (answer = true ↔ ∀ n m, m ≠ n → s.shape.Congruent a b n m →
        s.shape.Reconcilable s.hierarchy a b n) ∧
      ((∀ n, s.shape.Below {a, b} n → s.graph.type n ≠ .bottom) →
        (answer = true ↔ ∀ n, s.shape.Below {a, b} n →
          s.shape.Reconcilable s.hierarchy a b n)) := by
  have he := Graph.entangled_of_atRest hs.graph hr
  have hview : s.graph.web.view = s.shape := hr.view_eq
  obtain ⟨fuel, hfuel⟩ := exists_fuel_unifyTurn hs he hproto ha hb
  have hends : ∃ answer s', (∀ budget ≥ fuel, s.unifiable budget a b = some (answer, s')) ∧
      (answer = true ↔ ∀ n m, m ≠ n → s.shape.Congruent a b n m →
        s.shape.Reconcilable s.hierarchy a b n) := by
    -- at the end the classes are those of the congruence; after a clash nothing is below both
    rcases unifyNodes_cases hfuel with ⟨s₁, hrun, hall⟩ | ⟨s₁, waiting, hrun, hall⟩
    · have hmeet := meet_of_done hs he ha hb hproto hrun
      rw [hview, hr.web_rep, hr.web_rep] at hmeet
      refine ⟨true, s₁.abandon s.graph.size, fun budget hbudget => ?_,
        iff_of_true rfl fun n m => hmeet.reconcilable⟩
      rw [unifiable, hall budget hbudget]
      rfl
    · refine ⟨false, (waiting.foldl blame s₁).abandon s.graph.size, fun budget hbudget => ?_,
        iff_of_false Bool.false_ne_true fun hclasses => ?_⟩
      · rw [unifiable, hall budget hbudget]
        rfl
      · have hbound := Shape.bound_quotient hclasses
        rw [← hview, ← hr.web_rep a, ← hr.web_rep b] at hbound
        exact not_bound_of_halted hs he ha hb hproto hrun hbound
  obtain ⟨answer, s', hall, hiff⟩ := hends
  exact ⟨fuel, answer, s', hall, hiff,
    fun htype => hiff.trans (Shape.forall_reconcilable_iff htype).symm⟩

/-- A node that is its own value, and two nodes in a circle, of which one leads to the first. -/
def looping : Session :=
  Sample.session (Sample.grammar [] [])
    [(.of 1, [⟨0, 0⟩]), (.of 2, [⟨0, 2⟩]), (.top, [⟨0, 1⟩, ⟨1, 0⟩])]

theorem sound_looping : looping.Sound ∧ looping.AtRest :=
  Sample.sound_session Sample.sound_grammar_nil (by decide)

theorem unifiable_iff_congruent_looping :
    ∃ fuel answer s', (∀ budget ≥ fuel, looping.unifiable budget 0 1 = some (answer, s')) ∧
      (answer = true ↔ ∀ n m, m ≠ n → looping.shape.Congruent 0 1 n m →
        looping.shape.Reconcilable looping.hierarchy 0 1 n) ∧
      ((∀ n, looping.shape.Below {0, 1} n → looping.graph.type n ≠ .bottom) →
        (answer = true ↔ ∀ n, looping.shape.Below {0, 1} n →
          looping.shape.Reconcilable looping.hierarchy 0 1 n)) :=
  unifiable_iff_congruent sound_looping.1 sound_looping.2 (by decide) (by decide) fun _ => rfl

/-- The value of one node has the type `bottom`, and the other node has no value. -/
def blighted : Session :=
  Sample.session (Sample.grammar [] []) [(.top, [⟨0, 1⟩]), (.bottom, []), (.top, [])]

/-- A node of the type `bottom` that is unified with no other one is no obstacle, though its type has
no lower bound but `bottom`. -/
theorem unifiable_of_alone : blighted.Sound ∧ blighted.AtRest ∧
    (∀ t, blighted.grammar.featuredPrototype? t = none) ∧
    (blighted.unifiable 5 0 2).map Prod.fst = some true ∧ blighted.shape.Below {0, 2} 1 ∧
    ¬ blighted.shape.Reconcilable blighted.hierarchy 0 2 1 := by
  have hsound : blighted.Sound ∧ blighted.AtRest :=
    Sample.sound_session Sample.sound_grammar_nil (by decide)
  have hbelow : blighted.shape.Below {0, 2} 1 :=
    (Shape.below_self (Set.mem_insert ..)).value (n := 0) (f := 0) (by decide)
  refine ⟨hsound.1, hsound.2, fun _ => rfl, by decide +kernel, hbelow, ?_⟩
  rintro ⟨t, hne, hall⟩
  exact hne (Hierarchy.le_bottom_iff.1 (hall 1 (.refl hbelow)))

end Session

end FeatureLogic
