import FeatureLogic.Proofs.Lattice.Meet

/-!
What a lattice knows. Greatest lower bounds that are looked up agree with those that are worked out
(`Lattice.Sound`), whatever has been asked before (`Lattice.Sound.of_grown`), so the answers of a
lattice are those of its order of types (`Lattice.isGreatest_unify`).
-/

open Relation

namespace FeatureLogic

namespace GlbTable

/-- What is learned changes nothing that is known already. -/
theorem getElem?_learn {table : GlbTable} {pair pair' : TypeId × TypeId} {glb answer : TypeId}
    (h : (table.learn pair glb)[pair']? = some answer) :
    (pair' = pair ∧ answer = glb) ∨ table[pair']? = some answer := by
  rw [learn, Std.TreeMap.getElem?_insertIfNew] at h
  split at h
  · rename_i heq
    exact .inl ⟨(Std.LawfulEqCmp.eq_of_compare heq.1).symm, (Option.some.inj h).symm⟩
  · exact .inr h

end GlbTable

namespace Lattice

/-- A lattice of a finished hierarchy that knows nothing false. -/
structure Sound (l : Lattice) : Prop where
  hierarchy : l.hierarchy.Sound
  known : ∀ {lo hi : Nat} {answer : TypeId},
    l.known[(TypeId.of lo, TypeId.of hi)]? = some answer → answer = l.hierarchy.meetDistinct lo hi

/-! ## Questions -/

section Questions

variable {l : Lattice}

@[simp] theorem hierarchy_unify (l : Lattice) (s t : TypeId) :
    (l.unify s t).2.hierarchy = l.hierarchy := by
  unfold unify
  split
  · rfl
  · split <;> rfl

@[simp] theorem atoms_unify (l : Lattice) (s t : TypeId) : (l.unify s t).2.atoms = l.atoms := by
  unfold unify
  split
  · rfl
  · split <;> rfl

theorem Sound.unify (hl : l.Sound) (s t : TypeId) : (l.unify s t).2.Sound := by
  unfold Lattice.unify
  split
  · exact hl
  · split
    · exact hl
    · rename_i lo hi _ _ _
      refine ⟨hl.hierarchy, fun h => ?_⟩
      rcases GlbTable.getElem?_learn h with ⟨hpair, rfl⟩ | hknown
      · cases hpair
        rfl
      · exact hl.known hknown

theorem Sound.unify_eq_glb (hl : l.Sound) (s t : TypeId) : (l.unify s t).1 = l.glb s t := by
  unfold Lattice.unify glb
  split
  · rfl
  · split
    · rename_i hknown
      exact hl.known hknown
    · rfl

@[simp] theorem hierarchy_subsumes (l : Lattice) (s t : TypeId) :
    (l.subsumes s t).2.hierarchy = l.hierarchy := by
  unfold subsumes
  split
  · rfl
  · exact l.hierarchy_unify s t

@[simp] theorem atoms_subsumes (l : Lattice) (s t : TypeId) :
    (l.subsumes s t).2.atoms = l.atoms := by
  unfold subsumes
  split
  · rfl
  · exact l.atoms_unify s t

theorem Sound.subsumes (hl : l.Sound) (s t : TypeId) : (l.subsumes s t).2.Sound := by
  unfold Lattice.subsumes
  split
  · exact hl
  · exact hl.unify s t

/-- A type subsumes those that are at least as specific. -/
theorem Sound.subsumes_iff (hl : l.Sound) (general specific : TypeId) :
    (l.subsumes general specific).1 = true ↔ l.hierarchy.Le specific general := by
  unfold Lattice.subsumes
  split
  · rename_i heq
    rcases heq with rfl | rfl <;> simp
  · simp only [hl.unify_eq_glb, beq_iff_eq]
    exact glb_eq_right_iff hl.hierarchy

/-! ## Lattices that answer alike -/

/-- Two lattices are the same, or are sound and of one order: they answer alike, whatever they have
been asked before. -/
def Akin (l l' : Lattice) : Prop := l' = l ∨ l.Sound ∧ l'.Sound ∧ l'.hierarchy = l.hierarchy

section Akin

variable {l l' : Lattice}

theorem akin_of_sound (hl : l.Sound) (hl' : l'.Sound) (horder : l'.hierarchy = l.hierarchy) :
    l.Akin l' :=
  .inr ⟨hl, hl', horder⟩

theorem Akin.subsumes_eq (h : l.Akin l') (s t : TypeId) :
    (l.subsumes s t).1 = (l'.subsumes s t).1 := by
  obtain rfl | ⟨hl, hl', horder⟩ := h
  · rfl
  · rw [Bool.eq_iff_iff, hl.subsumes_iff, hl'.subsumes_iff, horder]

theorem Akin.subsumes (h : l.Akin l') (s t : TypeId) :
    (l.subsumes s t).2.Akin (l'.subsumes s t).2 := by
  obtain rfl | ⟨hl, hl', horder⟩ := h
  · exact .inl rfl
  · exact akin_of_sound (hl.subsumes s t) (hl'.subsumes s t) (by simp [horder])

end Akin

@[simp] theorem hierarchy_intern (l : Lattice) (name : String) :
    (l.intern name).2.hierarchy = l.hierarchy := by
  unfold intern
  split <;> rfl

theorem getD_typeId?_ne_bottom (l : Lattice) (name : String) :
    (l.typeId? name).getD .top ≠ .bottom := by
  unfold typeId?
  split
  · exact nofun
  · cases l.atoms.index? name <;> exact nofun

theorem intern_ne_bottom (l : Lattice) (name : String) : (l.intern name).1 ≠ .bottom := by
  unfold intern
  split <;> exact nofun

theorem Sound.intern (hl : l.Sound) (name : String) : (l.intern name).2.Sound := by
  unfold Lattice.intern
  split
  · exact hl
  · exact ⟨hl.hierarchy, hl.known⟩

/-- What every question keeps holds after all of them. -/
theorem saturate_induct {P : Lattice → Prop}
    (hstep : ∀ {l} (s t : TypeId), P l → P (l.unify s t).2) (h : P l) : P l.saturate := by
  unfold saturate
  refine List.foldlRecOn _ _ h fun l₁ h₁ s _ => ?_
  refine List.foldlRecOn _ _ h₁ fun l₂ h₂ t _ => ?_
  split
  · exact hstep _ _ h₂
  · exact h₂

@[simp] theorem hierarchy_saturate (l : Lattice) : l.saturate.hierarchy = l.hierarchy :=
  saturate_induct (P := fun l' => l'.hierarchy = l.hierarchy)
    (fun s t h => (hierarchy_unify _ s t).trans h) rfl

theorem Sound.saturate (hl : l.Sound) : l.saturate.Sound :=
  saturate_induct (fun s t h => h.unify s t) hl

end Questions

/-! ## Growing -/

/-- The second lattice is the first one after any questions and new atoms. A table that is read from
elsewhere may hold anything and is no such step. -/
inductive Grown : Lattice → Lattice → Prop
  | refl (l : Lattice) : Grown l l
  | intern {l l' : Lattice} (name : String) (h : Grown l l') : Grown l (l'.intern name).2
  | unify {l l' : Lattice} (s t : TypeId) (h : Grown l l') : Grown l (l'.unify s t).2
  | subsumes {l l' : Lattice} (s t : TypeId) (h : Grown l l') : Grown l (l'.subsumes s t).2
  | saturate {l l' : Lattice} (h : Grown l l') : Grown l l'.saturate

theorem Sound.of_grown {l l' : Lattice} (hl : l.Sound) (h : Grown l l') : l'.Sound := by
  induction h with
  | refl => exact hl
  | intern name _ ih => exact ih.intern name
  | unify s t _ ih => exact ih.unify s t
  | subsumes s t _ ih => exact ih.subsumes s t
  | saturate _ ih => exact ih.saturate

theorem Grown.hierarchy_eq {l l' : Lattice} (h : Grown l l') : l'.hierarchy = l.hierarchy := by
  induction h with
  | refl => rfl
  | intern name _ ih => rw [hierarchy_intern, ih]
  | unify s t _ ih => rw [hierarchy_unify, ih]
  | subsumes s t _ ih => rw [hierarchy_subsumes, ih]
  | saturate _ ih => rw [hierarchy_saturate, ih]

/-- A lattice that is built from declarations has no atoms and has worked out nothing. -/
theorem eq_of_declarations {d : Declarations} {l : Lattice} (h : ofDeclarations d = .ok l) :
    Hierarchy.ofDeclarations d = .ok l.hierarchy ∧ l = ⟨l.hierarchy, .empty, {}⟩ := by
  unfold ofDeclarations at h
  cases hh : Hierarchy.ofDeclarations d with
  | error e =>
    rw [hh] at h
    cases h
  | ok hierarchy =>
    rw [hh] at h
    cases h
    exact ⟨rfl, rfl⟩

/-- A lattice that is built from declarations is sound. -/
theorem sound_of_declarations {types : List (String × List String)} {d : Declarations}
    {l : Lattice} (hd : Declarations.initial.declareAll types = .ok d)
    (hl : ofDeclarations d = .ok l) : l.Sound := by
  have hdecl := Declarations.sound_of_declareAll Declarations.sound_initial hd
  obtain ⟨hh, heq⟩ := eq_of_declarations hl
  refine ⟨Hierarchy.sound_of_declarations hdecl hh, fun hknown => ?_⟩
  rw [heq] at hknown
  have hnone : (∅ : GlbTable)[_]? = some _ := hknown
  rw [Std.TreeMap.getElem?_emptyc] at hnone
  cases hnone

/-- A lattice of which something can be evaluated is built. -/
theorem exists_built {α : Type} (types : List (String × List String)) (read : Lattice → α) {a : α}
    (h : ((Declarations.initial.declareAll types).toOption.bind fun d =>
      (ofDeclarations d).toOption.map read) = some a) :
    ∃ d l, Declarations.initial.declareAll types = .ok d ∧ ofDeclarations d = .ok l ∧
      read l = a := by
  cases hd : Declarations.initial.declareAll types with
  | error e => simp [hd, Except.toOption] at h
  | ok d =>
    cases hl : ofDeclarations d with
    | error e => simp [hd, hl, Except.toOption] at h
    | ok l => exact ⟨d, l, rfl, hl, by simpa [hd, hl, Except.toOption] using h⟩

/-! ## The order of types -/

/-- The types there are: those of the hierarchy and the atoms. -/
def HasType (l : Lattice) (t : TypeId) : Prop :=
  ∃ i < l.typeCount + l.atomCount, t = .of i

/-- One step up: to a parent, or from an atom to the universal type. -/
def Up (l : Lattice) (s t : TypeId) : Prop :=
  t ∈ l.parents s ∨ l.isAtom s = true ∧ t = .top

/-- The reflexive and transitive closure of the steps up. -/
def Below (l : Lattice) : TypeId → TypeId → Prop := ReflTransGen l.Up

section Order

variable {l : Lattice} (hs : l.hierarchy.Sound)
include hs

theorem le_of_below {s t : TypeId} (h : l.Below s t) : l.hierarchy.Le s t := by
  induction h with
  | refl => exact Hierarchy.le_refl
  | @tail t u _ hup ih =>
    refine hs.le_trans ih ?_
    rcases hup with hp | ⟨-, rfl⟩
    · cases t with
      | bottom => cases hp
      | of t =>
        obtain ⟨p, hparent, rfl⟩ := List.mem_map.1 hp
        exact .inr (ReflTransGen.single hparent)
    · exact Hierarchy.le_top

omit hs in
theorem below_of_hierarchy {s t : Nat} (h : l.hierarchy.Below s t) :
    l.Below (.of s) (.of t) := by
  induction h with
  | refl => exact ReflTransGen.refl
  | tail _ hp ih => exact ih.tail (.inl (List.mem_map_of_mem hp))

theorem below_iff_le {s t : TypeId} (ht : s ≠ .bottom) :
    l.Below s t ↔ l.hierarchy.Le s t := by
  refine ⟨le_of_below hs, fun h => ?_⟩
  cases s with
  | bottom => exact absurd rfl ht
  | of s =>
    cases t with
    | bottom => exact h.elim
    | of t =>
      rcases h with rfl | h
      · by_cases hsize : s < l.typeCount
        · exact below_of_hierarchy (hs.below_zero hsize)
        · exact ReflTransGen.single (.inr ⟨by simpa [isAtom] using hsize, rfl⟩)
      · exact below_of_hierarchy h

theorem hasType_of_below {s t : TypeId} (ht : l.HasType t) (hne : t ≠ .top) (h : l.Below s t) :
    l.HasType s := by
  have hle := le_of_below hs h
  obtain ⟨i, hi, rfl⟩ := ht
  cases s with
  | bottom => exact absurd (ReflTransGen.cases_head h) (by
      rintro (heq | ⟨u, hup, -⟩)
      · cases heq
      · rcases hup with hp | ⟨hp, -⟩
        · cases hp
        · cases hp)
  | of s =>
    rcases hle with rfl | hbelow
    · exact absurd rfl hne
    rcases ReflTransGen.cases_head hbelow with rfl | ⟨p, hp, -⟩
    · exact ⟨s, hi, rfl⟩
    · have := (hs.parent_lt hp).2
      exact ⟨s, Nat.lt_of_lt_of_le this (Nat.le_add_right _ _), rfl⟩

end Order

/-- In a lattice built from declarations, `unify` gives the greatest type below two types, `bottom`
when no type is below both, and `subsumes` tells of the order, whatever has been asked before. -/
theorem isGreatest_unify {types : List (String × List String)} {d : Declarations}
    {l₀ l : Lattice} (hd : Declarations.initial.declareAll types = .ok d)
    (hbuilt : ofDeclarations d = .ok l₀) (hgrown : Grown l₀ l) {s t : TypeId}
    (hs : l.HasType s) (ht : l.HasType t) :
    ((l.unify s t).1 = .bottom → ∀ u, l.HasType u → ¬ (l.Below u s ∧ l.Below u t)) ∧
    ((l.unify s t).1 ≠ .bottom → l.HasType (l.unify s t).1 ∧
      l.Below (l.unify s t).1 s ∧ l.Below (l.unify s t).1 t ∧
      ∀ u, l.HasType u → l.Below u s → l.Below u t → l.Below u (l.unify s t).1) ∧
    ((l.subsumes s t).1 = true ↔ l.Below t s) := by
  have hl := (sound_of_declarations hd hbuilt).of_grown hgrown
  have hne : ∀ {u}, l.HasType u → u ≠ .bottom := by
    rintro u ⟨i, -, rfl⟩
    exact TypeId.noConfusion
  obtain ⟨hleft, hright, hgreatest⟩ := glb_spec hl.hierarchy s t
  rw [hl.unify_eq_glb, hl.subsumes_iff, ← below_iff_le hl.hierarchy (hne ht)]
  refine ⟨fun hbottom u hu ⟨hus, hut⟩ => ?_, fun hsome => ?_, Iff.rfl⟩
  · have := hgreatest u (le_of_below hl.hierarchy hus) (le_of_below hl.hierarchy hut)
    rw [hbottom, Hierarchy.le_bottom_iff] at this
    exact hne hu this
  · have hs' := (below_iff_le hl.hierarchy hsome).2 hleft
    have ht' := (below_iff_le hl.hierarchy hsome).2 hright
    refine ⟨?_, hs', ht', fun u hu hus hut => (below_iff_le hl.hierarchy (hne hu)).2
      (hgreatest u (le_of_below hl.hierarchy hus) (le_of_below hl.hierarchy hut))⟩
    by_cases htop : s = .top
    · -- below the universal type the answer is the other type
      have : l.glb s t = t :=
        (glb_eq_right_iff hl.hierarchy).2 (htop ▸ Hierarchy.le_top)
      exact this.symm ▸ ht
    · exact hasType_of_below hl.hierarchy hs htop hs'

/-- Two types that share two subtypes make a lattice of six types. -/
theorem built_diamond : ∃ (d : Declarations) (l : Lattice),
    Declarations.initial.declareAll
      [("a", []), ("b", []), ("c", ["a", "b"]), ("d", ["a", "b"])] = .ok d ∧
    ofDeclarations d = .ok l ∧ l.typeCount = 6 :=
  exists_built _ typeCount (by decide +kernel)

/-- Two types that share two subtypes, after an atom came up and a question was asked. -/
theorem isGreatest_unify_diamond : ∃ (d : Declarations) (l₀ l : Lattice),
    Declarations.initial.declareAll
      [("a", []), ("b", []), ("c", ["a", "b"]), ("d", ["a", "b"])] = .ok d ∧
    ofDeclarations d = .ok l₀ ∧ Grown l₀ l ∧ l.HasType (.of 1) ∧ l.HasType (.of 2) ∧
    ((l.unify (.of 1) (.of 2)).1 = .bottom →
      ∀ u, l.HasType u → ¬ (l.Below u (.of 1) ∧ l.Below u (.of 2))) ∧
    ((l.unify (.of 1) (.of 2)).1 ≠ .bottom → l.HasType (l.unify (.of 1) (.of 2)).1 ∧
      l.Below (l.unify (.of 1) (.of 2)).1 (.of 1) ∧ l.Below (l.unify (.of 1) (.of 2)).1 (.of 2) ∧
      ∀ u, l.HasType u → l.Below u (.of 1) → l.Below u (.of 2) →
        l.Below u (l.unify (.of 1) (.of 2)).1) ∧
    ((l.subsumes (.of 1) (.of 2)).1 = true ↔ l.Below (.of 2) (.of 1)) := by
  obtain ⟨d, l₀, hd, hl, hcount⟩ := built_diamond
  have hgrown : Grown l₀ ((l₀.intern "atom").2.unify (.of 1) (.of 4)).2 :=
    .unify _ _ (.intern _ (.refl _))
  have htype : ∀ i < 6, HasType ((l₀.intern "atom").2.unify (.of 1) (.of 4)).2 (.of i) := by
    intro i hi
    refine ⟨i, ?_, rfl⟩
    rw [typeCount, hierarchy_unify, hierarchy_intern]
    exact Nat.lt_of_lt_of_le hi (hcount ▸ Nat.le_add_right _ _)
  exact ⟨d, l₀, _, hd, hl, hgrown, htype 1 (by decide), htype 2 (by decide),
    isGreatest_unify hd hl hgrown (htype 1 (by decide)) (htype 2 (by decide))⟩

end Lattice

end FeatureLogic
