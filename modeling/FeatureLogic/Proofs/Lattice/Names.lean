import FeatureLogic.Proofs.Lattice.Knowledge

/-!
Names of types. An atom is made for a name that no type of the hierarchy has (`Lattice.AtomsApart`),
so every type of a lattice is found again by its name, as a word or as the name of an atom.
-/

namespace FeatureLogic

namespace NameTable

theorem exists_name {t : NameTable} {i : Nat} (hi : i < t.size) :
    ∃ name, t.name? i = some name :=
  ⟨t.names[i], Array.getElem?_eq_getElem hi⟩

theorem mem_of_name {t : NameTable} {i : Nat} {name : String} (h : t.name? i = some name) :
    name ∈ t.toList :=
  Array.mem_toList_iff.2 (Array.mem_of_getElem? h)

theorem mem_toList_intern {t : NameTable} {name other : String}
    (h : other ∈ (t.intern name).2.toList) : other = name ∨ other ∈ t.toList := by
  unfold intern at h
  split at h
  · exact .inr h
  · rename_i hnone
    simp only [insert] at h
    split at h
    · exact .inr h
    · simp only [toList, Array.toList_push, List.mem_append, List.mem_singleton] at h
      exact h.symm

end NameTable

namespace Lattice

/-- No type of the hierarchy has the name of an atom. -/
def AtomsApart (l : Lattice) : Prop :=
  ∀ name ∈ l.atoms.toList, l.hierarchy.names.index? name = none

instance (l : Lattice) : Decidable l.AtomsApart :=
  inferInstanceAs (Decidable (∀ name ∈ l.atoms.toList, l.hierarchy.names.index? name = none))

variable {l : Lattice}

theorem atomsApart_ofDeclarations {d : Declarations} (h : ofDeclarations d = .ok l) :
    l.AtomsApart := by
  rw [(eq_of_declarations h).2]
  exact fun name hname => by cases hname

theorem AtomsApart.intern (h : l.AtomsApart) (name : String) : (l.intern name).2.AtomsApart := by
  unfold Lattice.intern
  split
  · exact h
  · rename_i hnone
    intro other hother
    rcases NameTable.mem_toList_intern hother with rfl | hother
    · exact hnone
    · exact h other hother

theorem AtomsApart.unify (h : l.AtomsApart) (s t : TypeId) : (l.unify s t).2.AtomsApart := by
  unfold AtomsApart
  rw [atoms_unify, hierarchy_unify]
  exact h

theorem AtomsApart.subsumes (h : l.AtomsApart) (s t : TypeId) :
    (l.subsumes s t).2.AtomsApart := by
  unfold AtomsApart
  rw [atoms_subsumes, hierarchy_subsumes]
  exact h

theorem AtomsApart.saturate (h : l.AtomsApart) : l.saturate.AtomsApart :=
  saturate_induct (fun s t h => h.unify s t) h

/-- Neither questions nor new atoms change this. -/
theorem AtomsApart.of_grown {l l' : Lattice} (hl : l.AtomsApart) (h : Grown l l') :
    l'.AtomsApart := by
  induction h with
  | refl => exact hl
  | intern name _ ih => exact ih.intern name
  | unify s t _ ih => exact ih.unify s t
  | subsumes s t _ ih => exact ih.subsumes s t
  | saturate _ ih => exact ih.saturate

/-! ## Types found by name -/

theorem HasType.exists_typeName {t : TypeId} (h : l.HasType t) :
    ∃ name, l.typeName? t = some name := by
  obtain ⟨i, hi, rfl⟩ := h
  simp only [typeName?]
  split
  · rename_i hlt
    exact NameTable.exists_name hlt
  · exact NameTable.exists_name (Nat.sub_lt_left_of_lt_add (Nat.le_of_not_lt ‹_›) hi)

/-- The name of a type is one of the hierarchy, or one of an atom. -/
theorem typeName_cases {t : TypeId} {name : String} (h : l.typeName? t = some name) :
    (∃ i, t = .of i ∧ l.isAtom t = false ∧ l.hierarchy.names.name? i = some name) ∨
      ∃ a, t = .of (l.typeCount + a) ∧ l.isAtom t = true ∧ l.atoms.name? a = some name := by
  cases t with
  | bottom => cases h
  | of i =>
    simp only [typeName?] at h
    split at h
    · rename_i hlt
      exact .inl ⟨i, rfl, by simpa [isAtom] using hlt, h⟩
    · rename_i hle
      rw [Nat.not_lt] at hle
      refine .inr ⟨i - l.typeCount, ?_, by simpa [isAtom] using hle, h⟩
      rw [Nat.add_sub_cancel' hle]

theorem typeId_of_hierarchy {i : Nat} {name : String}
    (h : l.hierarchy.names.name? i = some name) : l.typeId? name = some (.of i) := by
  rw [typeId?, NameTable.index?_eq_some_iff.2 h]

/-- The name of an atom is that of no new atom. -/
theorem AtomsApart.intern_eq (hl : l.AtomsApart) {a : Nat} {name : String}
    (h : l.atoms.name? a = some name) : l.intern name = (.of (l.typeCount + a), l) := by
  rw [Lattice.intern, hl name (NameTable.mem_of_name h), NameTable.intern,
    NameTable.index?_eq_some_iff.2 h]

end Lattice

end FeatureLogic
