import FeatureLogic.Proofs.Lattice.Knowledge
import FeatureLogic.Restrictor.Basic

/-!
Types made more general. One pass over the types of a rule keeps one of them, yet what it ends with
is minimal among all that subsume the type it was asked for (`Restrictor.IsBest`): a type that gives
way is above the one that it gives way to, so by transitivity nothing that was tried before is lost.
The types may come in any order, more than once, and need not be comparable.
-/

namespace FeatureLogic.Restrictor

/-- The types that are listed at a cursor. -/
def listed (r : Restrictor) (cursor : RestrictCursor) : List TypeId :=
  (r.ruleAt? cursor).elim [] RestrictRule.generalize

/-! ## One type -/

/-- One type is tried against `type` and, when it subsumes that, against the best so far. -/
def consider (type candidate : TypeId) (best : Option TypeId) (l : Lattice) :
    Option TypeId × Lattice :=
  if (l.subsumes candidate type).1 then
    match best with
    | none => (some candidate, (l.subsumes candidate type).2)
    | some current =>
      (some (if ((l.subsumes candidate type).2.subsumes current candidate).1 then candidate
          else current),
        ((l.subsumes candidate type).2.subsumes current candidate).2)
  else (best, (l.subsumes candidate type).2)

theorem bestGeneral_cons (type candidate : TypeId) (rest : List TypeId) (best : Option TypeId)
    (l : Lattice) :
    bestGeneral type (candidate :: rest) best l =
      bestGeneral type rest (consider type candidate best l).1
        (consider type candidate best l).2 := by
  rw [bestGeneral]
  unfold consider
  cases l.subsumes candidate type with
  | mk answer l₁ =>
    cases answer with
    | false => rfl
    | true =>
      cases best with
      | none => rfl
      | some current =>
        simp only [if_true]
        cases l₁.subsumes current candidate with
        | mk answer l₂ => cases answer <;> rfl

/-- To make a type general is one pass over the types that are listed. -/
theorem generalize_eq (r : Restrictor) (cursor : RestrictCursor) (type : TypeId) (l : Lattice) :
    r.generalize cursor type l =
      ((bestGeneral type (r.listed cursor) none l).1.getD type,
        (bestGeneral type (r.listed cursor) none l).2) := by
  unfold generalize listed
  cases r.ruleAt? cursor <;> rfl

/-! ## The lattice afterwards -/

section Lattices

variable {l l' : Lattice}

theorem grown_consider {l₀ : Lattice} (type candidate : TypeId) (best : Option TypeId)
    (h : l₀.Grown l) : l₀.Grown (consider type candidate best l).2 := by
  unfold consider
  by_cases hasked : (l.subsumes candidate type).1
  · rw [if_pos hasked]
    cases best with
    | none => exact .subsumes _ _ h
    | some current => exact .subsumes _ _ (.subsumes _ _ h)
  · rw [if_neg hasked]
    exact .subsumes _ _ h

theorem grown_bestGeneral {l₀ : Lattice} (type : TypeId) (types : List TypeId)
    (best : Option TypeId) (h : l₀.Grown l) : l₀.Grown (bestGeneral type types best l).2 := by
  induction types generalizing best l with
  | nil => exact h
  | cons candidate rest ih =>
    rw [bestGeneral_cons]
    exact ih _ (grown_consider type candidate best h)

/-- To make a type general only asks questions. -/
theorem grown_generalize {l₀ : Lattice} (r : Restrictor) (cursor : RestrictCursor) (type : TypeId)
    (h : l₀.Grown l) : l₀.Grown (r.generalize cursor type l).2 := by
  rw [generalize_eq]
  exact grown_bestGeneral type _ none h

theorem sound_generalize (r : Restrictor) (cursor : RestrictCursor) (type : TypeId)
    (hl : l.Sound) : (r.generalize cursor type l).2.Sound ∧
      (r.generalize cursor type l).2.hierarchy = l.hierarchy :=
  have hgrown := r.grown_generalize cursor type (.refl l)
  ⟨hl.of_grown hgrown, hgrown.hierarchy_eq⟩

/-- Lattices that answer alike make types general alike. -/
theorem akin_consider (h : l.Akin l') (type candidate : TypeId) (best : Option TypeId) :
    (consider type candidate best l).1 = (consider type candidate best l').1 ∧
      (consider type candidate best l).2.Akin (consider type candidate best l').2 := by
  have hakin := h.subsumes candidate type
  unfold consider
  rw [← h.subsumes_eq candidate type]
  by_cases hasked : (l.subsumes candidate type).1
  · rw [if_pos hasked, if_pos hasked]
    cases best with
    | none => exact ⟨rfl, hakin⟩
    | some current =>
      simp only [← hakin.subsumes_eq current candidate]
      exact ⟨trivial, hakin.subsumes current candidate⟩
  · rw [if_neg hasked, if_neg hasked]
    exact ⟨rfl, hakin⟩

theorem akin_bestGeneral (h : l.Akin l') (type : TypeId) (types : List TypeId)
    (best : Option TypeId) :
    (bestGeneral type types best l).1 = (bestGeneral type types best l').1 ∧
      (bestGeneral type types best l).2.Akin (bestGeneral type types best l').2 := by
  induction types generalizing best l l' with
  | nil => exact ⟨rfl, h⟩
  | cons candidate rest ih =>
    obtain ⟨hbest, hakin⟩ := akin_consider h type candidate best
    rw [bestGeneral_cons, bestGeneral_cons, hbest]
    exact ih hakin _

theorem akin_generalize (h : l.Akin l') (r : Restrictor) (cursor : RestrictCursor)
    (type : TypeId) :
    (r.generalize cursor type l).1 = (r.generalize cursor type l').1 ∧
      (r.generalize cursor type l).2.Akin (r.generalize cursor type l').2 := by
  obtain ⟨hbest, hakin⟩ := akin_bestGeneral h type (r.listed cursor) none
  rw [generalize_eq, generalize_eq, hbest]
  exact ⟨rfl, hakin⟩

end Lattices

/-! ## The best of the types -/

/-- Of some types, the one that is kept subsumes `type`, and no other one that does so is below it.
None is kept when no one subsumes it. -/
def IsBest (h : Hierarchy) (type : TypeId) (tried : List TypeId) : Option TypeId → Prop
  | none => ∀ t ∈ tried, ¬ h.Le type t
  | some best => best ∈ tried ∧ h.Le type best ∧ ∀ t ∈ tried, h.Le type t → h.Le t best → t = best

section Best

variable {l : Lattice} {type candidate : TypeId} {tried : List TypeId} {best : Option TypeId}

/-- A type that is not above `type` may be added. -/
theorem IsBest.pass (h : IsBest l.hierarchy type tried best)
    (hnot : ¬ l.hierarchy.Le type candidate) :
    IsBest l.hierarchy type (tried ++ [candidate]) best := by
  cases best with
  | none =>
    intro t ht
    rcases List.mem_append.1 ht with ht | ht
    · exact h t ht
    · rwa [List.mem_singleton.1 ht]
  | some best =>
    obtain ⟨hmem, hle, hmin⟩ := h
    refine ⟨by simp [hmem], hle, fun t ht habove hbelow => ?_⟩
    rcases List.mem_append.1 ht with ht | ht
    · exact hmin t ht habove hbelow
    · rw [List.mem_singleton.1 ht] at habove
      exact absurd habove hnot

/-- The first type above `type` is the best so far. -/
theorem IsBest.first (h : IsBest l.hierarchy type tried none)
    (hle : l.hierarchy.Le type candidate) :
    IsBest l.hierarchy type (tried ++ [candidate]) (some candidate) := by
  refine ⟨by simp, hle, fun t ht habove _ => ?_⟩
  rcases List.mem_append.1 ht with ht | ht
  · exact absurd habove (h t ht)
  · exact List.mem_singleton.1 ht

/-- The best so far gives way to a type below it. -/
theorem IsBest.replace {current : TypeId} (hl : l.Sound)
    (h : IsBest l.hierarchy type tried (some current)) (hle : l.hierarchy.Le type candidate)
    (hbelow : l.hierarchy.Le candidate current) :
    IsBest l.hierarchy type (tried ++ [candidate]) (some candidate) := by
  obtain ⟨-, -, hmin⟩ := h
  refine ⟨by simp, hle, fun t ht habove hcandidate => ?_⟩
  rcases List.mem_append.1 ht with ht | ht
  · -- what is below the candidate is below the old best, and so is the old best itself
    have heq : t = current := hmin t ht habove (hl.hierarchy.le_trans hcandidate hbelow)
    subst heq
    exact hl.hierarchy.le_antisymm hcandidate hbelow
  · exact List.mem_singleton.1 ht

/-- The best so far stays beside a type that is not below it. -/
theorem IsBest.stay {current : TypeId} (h : IsBest l.hierarchy type tried (some current))
    (hnot : ¬ l.hierarchy.Le candidate current) :
    IsBest l.hierarchy type (tried ++ [candidate]) (some current) := by
  obtain ⟨hmem, hle, hmin⟩ := h
  refine ⟨by simp [hmem], hle, fun t ht habove hbelow => ?_⟩
  rcases List.mem_append.1 ht with ht | ht
  · exact hmin t ht habove hbelow
  · rw [List.mem_singleton.1 ht] at hbelow
    exact absurd hbelow hnot

/-- One more type, whatever it is. -/
theorem IsBest.consider (hl : l.Sound) (h : IsBest l.hierarchy type tried best)
    (candidate : TypeId) :
    IsBest l.hierarchy type (tried ++ [candidate]) (consider type candidate best l).1 := by
  have hasked := hl.subsumes_iff candidate type
  unfold Restrictor.consider
  by_cases hle : l.hierarchy.Le type candidate
  · rw [if_pos (hasked.2 hle)]
    cases best with
    | none => exact h.first hle
    | some current =>
      have hcompared := (hl.subsumes candidate type).subsumes_iff current candidate
      rw [Lattice.hierarchy_subsumes] at hcompared
      by_cases hbelow : l.hierarchy.Le candidate current
      · simp only [hcompared.2 hbelow, if_true]
        exact h.replace hl hle hbelow
      · simp only [mt hcompared.1 hbelow]
        exact h.stay hbelow
  · rw [if_neg (mt hasked.1 hle)]
    exact h.pass hle

/-- The whole pass, from what was tried before it. -/
theorem IsBest.bestGeneral (hl : l.Sound) (h : IsBest l.hierarchy type tried best)
    (types : List TypeId) :
    IsBest l.hierarchy type (tried ++ types) (bestGeneral type types best l).1 := by
  induction types generalizing tried best l with
  | nil => simpa [Restrictor.bestGeneral] using h
  | cons candidate rest ih =>
    have hgrown := grown_consider type candidate best (.refl l)
    have hnext := h.consider hl candidate
    rw [← hgrown.hierarchy_eq] at hnext ⊢
    rw [bestGeneral_cons, List.append_cons]
    exact ih (hl.of_grown hgrown) hnext

theorem isBest_listed (hl : l.Sound) (r : Restrictor) (cursor : RestrictCursor) (type : TypeId) :
    IsBest l.hierarchy type (r.listed cursor)
      (Restrictor.bestGeneral type (r.listed cursor) none l).1 :=
  have hnone : IsBest l.hierarchy type [] none := by simp [IsBest]
  hnone.bestGeneral hl (r.listed cursor)

/-- A type is only made more general. -/
theorem le_generalize (r : Restrictor) (cursor : RestrictCursor) (type : TypeId) (hl : l.Sound) :
    l.hierarchy.Le type (r.generalize cursor type l).1 := by
  have hbest := isBest_listed hl r cursor type
  rw [generalize_eq]
  cases hkept : (Restrictor.bestGeneral type (r.listed cursor) none l).1 with
  | none => simp
  | some best =>
    rw [hkept] at hbest
    exact hbest.2.1

/-- A type that no listed type subsumes stays as it is. -/
theorem generalize_of_not_le (hl : l.Sound) {r : Restrictor} {cursor : RestrictCursor}
    (hnone : ∀ t ∈ r.listed cursor, ¬ l.hierarchy.Le type t) :
    (r.generalize cursor type l).1 = type := by
  have hbest := isBest_listed hl r cursor type
  rw [generalize_eq]
  cases hkept : (Restrictor.bestGeneral type (r.listed cursor) none l).1 with
  | none => rfl
  | some best =>
    rw [hkept] at hbest
    exact absurd hbest.2.1 (hnone best hbest.1)

/-- A type that some listed type subsumes becomes the best of them. -/
theorem isBest_generalize (hl : l.Sound) {r : Restrictor} {cursor : RestrictCursor} {t : TypeId}
    (ht : t ∈ r.listed cursor) (hle : l.hierarchy.Le type t) :
    IsBest l.hierarchy type (r.listed cursor) (some (r.generalize cursor type l).1) := by
  have hbest := isBest_listed hl r cursor type
  rw [generalize_eq]
  cases hkept : (Restrictor.bestGeneral type (r.listed cursor) none l).1 with
  | none =>
    rw [hkept] at hbest
    exact absurd hle (hbest t ht)
  | some best => rwa [hkept] at hbest

/-- What a type becomes stays as it is, also when it is a listed type itself. -/
theorem generalize_generalize (hl : l.Sound) {l' : Lattice} (hl' : l'.Sound)
    (horder : l'.hierarchy = l.hierarchy) (r : Restrictor) (cursor : RestrictCursor)
    (type : TypeId) :
    (r.generalize cursor (r.generalize cursor type l).1 l').1 =
      (r.generalize cursor type l).1 := by
  by_cases hsome : ∃ t ∈ r.listed cursor, l.hierarchy.Le type t
  · obtain ⟨t, ht, hle⟩ := hsome
    obtain ⟨hmem, habove, -⟩ := isBest_generalize hl ht hle
    -- the second pass finds a type above the first answer, and the first answer is one
    obtain ⟨-, -, hmin⟩ := isBest_generalize hl' hmem Hierarchy.le_refl
    have hback := r.le_generalize cursor (r.generalize cursor type l).1 hl'
    exact (hmin _ hmem Hierarchy.le_refl hback).symm
  · have hnone : ∀ t ∈ r.listed cursor, ¬ l.hierarchy.Le type t :=
      fun t ht hle => hsome ⟨t, ht, hle⟩
    rw [generalize_of_not_le hl hnone]
    rw [← horder] at hnone
    exact generalize_of_not_le hl' hnone

end Best

/-- In a lattice that was built from declarations, and has answered any questions since, a type
stays as it is when no type that is listed at the cursor subsumes it. Otherwise it becomes a listed
type that subsumes it, and no other listed type that does so is below that one. Made general once
more at the cursor it stays as it is, whatever the lattice was asked in between. -/
theorem generalize_minimal {types : List (String × List String)} {d : Declarations}
    {l₀ l : Lattice} (hd : Declarations.initial.declareAll types = .ok d)
    (hbuilt : Lattice.ofDeclarations d = .ok l₀) (hgrown : l₀.Grown l) (r : Restrictor)
    (cursor : RestrictCursor) (type : TypeId) :
    ((∀ t ∈ r.listed cursor, (l.subsumes t type).1 = false) →
      (r.generalize cursor type l).1 = type) ∧
    ((∃ t ∈ r.listed cursor, (l.subsumes t type).1 = true) →
      (r.generalize cursor type l).1 ∈ r.listed cursor ∧
      (l.subsumes (r.generalize cursor type l).1 type).1 = true ∧
      ∀ t ∈ r.listed cursor, (l.subsumes t type).1 = true →
        (l.subsumes (r.generalize cursor type l).1 t).1 = true →
        t = (r.generalize cursor type l).1) ∧
    l₀.Grown (r.generalize cursor type l).2 ∧
    ∀ l' : Lattice, l₀.Grown l' →
      (r.generalize cursor (r.generalize cursor type l).1 l').1 =
        (r.generalize cursor type l).1 := by
  have hl₀ := Lattice.sound_of_declarations hd hbuilt
  have hl := hl₀.of_grown hgrown
  refine ⟨fun hnone => ?_, ?_, r.grown_generalize cursor type hgrown, fun l' hgrown' => ?_⟩
  · apply generalize_of_not_le hl
    intro t ht hle
    rw [← hl.subsumes_iff, hnone t ht] at hle
    cases hle
  · simp only [hl.subsumes_iff]
    rintro ⟨t, ht, hle⟩
    exact isBest_generalize hl ht hle
  · have horder : l'.hierarchy = l.hierarchy := by
      rw [hgrown'.hierarchy_eq, hgrown.hierarchy_eq]
    exact generalize_generalize hl (hl₀.of_grown hgrown') horder r cursor type

/-- Two types with two common subtypes are listed, one of them twice, for one of these subtypes. -/
theorem generalize_minimal_diamond : ∃ (d : Declarations) (l : Lattice) (r : Restrictor),
    Declarations.initial.declareAll
      [("a", []), ("b", []), ("c", ["a", "b"]), ("d", ["a", "b"])] = .ok d ∧
    Lattice.ofDeclarations d = .ok l ∧
    r.listed (.at 0) = [.of 0, .of 1, .of 2, .of 1] ∧
    (∃ t ∈ r.listed (.at 0), (l.subsumes t (.of 4)).1 = true) ∧
    (r.generalize (.at 0) (.of 4) l).1 ∈ r.listed (.at 0) ∧
    (l.subsumes (r.generalize (.at 0) (.of 4) l).1 (.of 4)).1 = true ∧
    (∀ t ∈ r.listed (.at 0), (l.subsumes t (.of 4)).1 = true →
      (l.subsumes (r.generalize (.at 0) (.of 4) l).1 t).1 = true →
      t = (r.generalize (.at 0) (.of 4) l).1) ∧
    (r.generalize (.at 0) (r.generalize (.at 0) (.of 4) l).1 (r.generalize (.at 0) (.of 4) l).2).1 =
      (r.generalize (.at 0) (.of 4) l).1 := by
  obtain ⟨d, l, hd, hbuilt, -⟩ := Lattice.built_diamond
  let r : Restrictor := .tree .empty
    ((RestrictRules.single .keep).setGeneralize 0 [.of 0, .of 1, .of 2, .of 1])
  have hlisted : r.listed (.at 0) = [.of 0, .of 1, .of 2, .of 1] := by decide +kernel
  have hl := Lattice.sound_of_declarations hd hbuilt
  have htop : ∃ t ∈ r.listed (.at 0), (l.subsumes t (.of 4)).1 = true :=
    ⟨.of 0, by simp [hlisted], (hl.subsumes_iff ..).2 Hierarchy.le_top⟩
  obtain ⟨-, hsome, hgrown, hagain⟩ :=
    generalize_minimal hd hbuilt (.refl l) r (.at 0) (.of 4)
  obtain ⟨hmem, hsub, hmin⟩ := hsome htop
  exact ⟨d, l, r, hd, hbuilt, hlisted, htop, hmem, hsub, hmin, hagain _ hgrown⟩

end FeatureLogic.Restrictor
