import FeatureLogic.Proofs.Shape

/-!
Pairings. A walk that is to map one structure to another pairs their nodes, the roots first and
then the values of every pair. The pairs are a map once none is left to be made
(`Shape.Pairing.subsumes`), and where there is a map, no other pairs are made (`Shape.Following`).
-/

open Relation

namespace FeatureLogic

namespace Shape

/-- The pairs of a walk that is to map the structure below `x` to the one below `y`: `partner?` has
those that are made and `due` those that are to be made, unless the walk comes to a value that the
second structure is `lacking`. -/
structure Pairing (h : Hierarchy) (S : Shape) (x : NodeId) (T : Shape) (y : NodeId)
    (partner? : NodeId → Option NodeId) (due : NodeId → NodeId → Prop) (lacking : Prop) :
    Prop where
  root : partner? x = some y ∨ due x y
  type_le : ∀ {n m}, partner? n = some m → h.Le (T.type m) (S.type n)
  value : ∀ {n m f v}, partner? n = some m → S.value? n f = some v →
    lacking ∨ ∃ w, T.value? m f = some w ∧ (partner? v = some w ∨ due v w)

/-- With a map at hand every node is paired with its image, and nothing is lacking. -/
structure Following (S : Shape) (x : NodeId) (μ : NodeId → NodeId)
    (partner? : NodeId → Option NodeId) (due : NodeId → NodeId → Prop) (lacking : Prop) :
    Prop where
  pair : ∀ {n m}, partner? n = some m → S.Reach x n ∧ m = μ n
  due : ∀ {n m}, due n m → S.Reach x n ∧ m = μ n
  complete : ¬ lacking

section Pairing

variable {h : Hierarchy} {S T : Shape} {x y : NodeId} {partner? : NodeId → Option NodeId}
  {due due' : NodeId → NodeId → Prop} {lacking lacking' : Prop}

theorem Pairing.start (hnone : ∀ n, partner? n = none) (hdue : due x y) :
    Pairing h S x T y partner? due lacking where
  root := .inr hdue
  type_le hn := by
    rw [hnone] at hn
    cases hn
  value hn := by
    rw [hnone] at hn
    cases hn

/-- Of the pairs that are due, some turn out to have been made. -/
theorem Pairing.pop (hp : Pairing h S x T y partner? due lacking)
    (hdue : ∀ {n m}, due n m → partner? n = some m ∨ due' n m) (hlacking : lacking → lacking') :
    Pairing h S x T y partner? due' lacking' where
  root := hp.root.elim .inl hdue
  type_le := hp.type_le
  value hn hv := by
    rcases hp.value hn hv with hl | ⟨w, hw, hpair⟩
    · exact .inl (hlacking hl)
    · exact .inr ⟨w, hw, hpair.elim .inl hdue⟩

/-- One more pair is made, and the values of its nodes become due. -/
theorem Pairing.push (hp : Pairing h S x T y partner? due lacking) {a b : NodeId}
    {partner'? : NodeId → Option NodeId} (hnone : partner? a = none)
    (hpartner : ∀ n, partner'? n = if a = n then some b else partner? n)
    (hle : h.Le (T.type b) (S.type a))
    (hvalue : ∀ {f v}, S.value? a f = some v →
      lacking' ∨ ∃ w, T.value? b f = some w ∧ due' v w)
    (hdue : ∀ {n m}, due n m → (n = a ∧ m = b) ∨ due' n m) (hlacking : lacking → lacking') :
    Pairing h S x T y partner'? due' lacking' := by
  have hkeep : ∀ {n m}, partner? n = some m → partner'? n = some m := by
    intro n m hn
    rw [hpartner, if_neg]
    · exact hn
    · rintro rfl
      rw [hnone] at hn
      cases hn
  -- what was paired or due stays so
  have hpush : ∀ {n m}, partner? n = some m ∨ due n m → partner'? n = some m ∨ due' n m := by
    rintro n m (hn | hn)
    · exact .inl (hkeep hn)
    · rcases hdue hn with ⟨rfl, rfl⟩ | hn
      · exact .inl (by rw [hpartner, if_pos rfl])
      · exact .inr hn
  refine ⟨hpush hp.root, fun {n m} hn => ?_, fun {n m f v} hn hv => ?_⟩
  · rw [hpartner] at hn
    split at hn
    · rename_i heq
      cases hn
      exact heq ▸ hle
    · exact hp.type_le hn
  · rw [hpartner] at hn
    split at hn
    · rename_i heq
      cases hn
      subst heq
      exact (hvalue hv).imp_right fun ⟨w, hw, hpair⟩ => ⟨w, hw, .inr hpair⟩
    · exact (hp.value hn hv).imp hlacking fun ⟨w, hw, hpair⟩ => ⟨w, hw, hpush hpair⟩

/-- When no pair is due and nothing is lacking, every node below the root has its partner. -/
theorem Pairing.subsumes (hp : Pairing h S x T y partner? due lacking)
    (hdue : ∀ n m, ¬ due n m) (hlacking : ¬ lacking) : S.Subsumes h x T y := by
  have hvalue : ∀ {n m f v}, partner? n = some m → S.value? n f = some v →
      ∃ w, T.value? m f = some w ∧ partner? v = some w := by
    intro n m f v hn hv
    obtain ⟨w, hw, hpair⟩ := (hp.value hn hv).resolve_left hlacking
    exact ⟨w, hw, hpair.resolve_right (hdue v w)⟩
  have hroot := hp.root.resolve_right (hdue x y)
  have hpaired : ∀ {n}, S.Reach x n → ∃ m, partner? n = some m := by
    intro n hn
    induction hn with
    | refl => exact ⟨y, hroot⟩
    | tail _ hstep ih =>
      obtain ⟨m, hm⟩ := ih
      obtain ⟨f, hf⟩ := hstep
      exact (hvalue hm hf).imp fun _ hw => hw.2
  refine ⟨fun n => (partner? n).getD y, by simp [hroot], fun {n} hn => ?_, fun {n f v} hn hv => ?_⟩
  · obtain ⟨m, hm⟩ := hpaired hn
    simp only [hm, Option.getD_some]
    exact hp.type_le hm
  · obtain ⟨m, hm⟩ := hpaired hn
    obtain ⟨w, hw, hpair⟩ := hvalue hm hv
    simp only [hm, hpair, Option.getD_some]
    exact hw

end Pairing

section Following

variable {h : Hierarchy} {S T : Shape} {x : NodeId} {μ : NodeId → NodeId}
  {partner? : NodeId → Option NodeId} {due due' : NodeId → NodeId → Prop}
  {lacking lacking' : Prop}

theorem Following.start (hnone : ∀ n, partner? n = none)
    (hdue : ∀ {n m}, due n m → n = x ∧ m = μ x) (hlacking : ¬ lacking) :
    S.Following x μ partner? due lacking where
  pair hn := by
    rw [hnone] at hn
    cases hn
  due hn := by
    obtain ⟨rfl, rfl⟩ := hdue hn
    exact ⟨ReflTransGen.refl, rfl⟩
  complete := hlacking

theorem Following.pop (hp : S.Following x μ partner? due lacking)
    (hdue : ∀ {n m}, due' n m → due n m) (hlacking : lacking' → lacking) :
    S.Following x μ partner? due' lacking' :=
  ⟨hp.pair, fun hn => hp.due (hdue hn), fun hl => hp.complete (hlacking hl)⟩

/-- A pair that is due is made; its values are paired along the map as well. -/
theorem Following.push (hp : S.Following x μ partner? due lacking) (hμ : S.Maps h x T μ)
    {a b : NodeId} (hab : due a b) {partner'? : NodeId → Option NodeId}
    (hpartner : ∀ n, partner'? n = if a = n then some b else partner? n)
    (hdue : ∀ {n m}, due' n m → due n m ∨ ∃ f, S.value? a f = some n ∧ T.value? b f = some m)
    (hlacking : lacking' → lacking ∨ ∃ f v, S.value? a f = some v ∧ T.value? b f = none) :
    S.Following x μ partner'? due' lacking' := by
  obtain ⟨hreach, rfl⟩ := hp.due hab
  refine ⟨fun {n m} hn => ?_, fun {n m} hn => ?_, fun hl => ?_⟩
  · rw [hpartner] at hn
    split at hn
    · rename_i heq
      cases hn
      exact heq ▸ ⟨hreach, rfl⟩
    · exact hp.pair hn
  · rcases hdue hn with hn | ⟨f, hv, hw⟩
    · exact hp.due hn
    · rw [hμ.value hreach hv] at hw
      exact ⟨hreach.value hv, (Option.some.inj hw).symm⟩
  · rcases hlacking hl with hl | ⟨f, v, hv, hnone⟩
    · exact hp.complete hl
    · rw [hμ.value hreach hv] at hnone
      cases hnone

/-- A pair that is due does not contradict the map. -/
theorem Following.fits (hp : S.Following x μ partner? due lacking) (hμ : S.Maps h x T μ)
    {a b : NodeId} (hab : due a b) :
    (∀ {z}, partner? a = some z → z = b) ∧ h.Le (T.type b) (S.type a) := by
  obtain ⟨hreach, rfl⟩ := hp.due hab
  exact ⟨fun hz => (hp.pair hz).2, hμ.type_le hreach⟩

end Following

end Shape

end FeatureLogic
