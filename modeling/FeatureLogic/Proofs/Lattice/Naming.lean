import FeatureLogic.Proofs.Lattice.Conservation
import FeatureLogic.Proofs.Lattice.Names

/-!
Names and types belong together one to one (`Lattice.AtomsApart.typeId_eq_some_iff`). The types that
are put between the declared ones get names that nothing else has, so that the table of names is as
long as the hierarchy (`Hierarchy.sizes_of_declarations`), and a name that was once given to a type
stays with it, whatever atoms come up later (`Lattice.Grown.typeName`).
-/

open Relation

namespace FeatureLogic

/-! ## Tables that grow -/

namespace NameTable

variable {t : NameTable} {name other : String} {i : Nat}

theorem name?_insert (h : t.name? i = some name) (other : String) :
    (t.insert other).name? i = some name := by
  have hi : i < t.names.size := (Array.getElem?_eq_some_iff.1 h).1
  unfold insert
  split
  · exact h
  · exact (Array.getElem?_push_lt hi).trans ((Array.getElem?_eq_getElem hi).symm.trans h)

/-- A number keeps its name. -/
theorem name?_intern (h : t.name? i = some name) (other : String) :
    (t.intern other).2.name? i = some name := by
  unfold intern
  split
  · exact h
  · exact name?_insert h other

/-- A name has the number that it was given. -/
theorem index?_intern (t : NameTable) (name : String) :
    (t.intern name).2.index? name = some (t.intern name).1 := by
  cases h : t.index? name with
  | some i => simp only [intern, h]
  | none =>
    rw [index?_eq_some_iff]
    simp only [intern, h, insert]
    split
    · simp_all
    · exact Array.getElem?_push_size

theorem lt_size_of_name (h : t.name? i = some name) : i < t.size :=
  (Array.getElem?_eq_some_iff.1 h).1

end NameTable

/-! ## No name is missing -/

namespace Hierarchy

theorem size_depthsOf (parents : Array (List Nat)) : (depthsOf parents).size = parents.size := by
  unfold depthsOf
  exact Array.foldl_induction (fun i (depths : Array Nat) => depths.size = i) rfl
    fun i depths h => (Array.size_push _).trans (congrArg (· + 1) h)

/-- Every type has a name of its own, whether it was declared or put between declared ones. -/
theorem sizes_of_declarations {d : Declarations} (hd : d.Sound) {h : Hierarchy}
    (hh : ofDeclarations d = .ok h) :
    h.parents.size = h.size ∧ h.children.size = h.size ∧ h.depths.size = h.size := by
  obtain ⟨draft, order, c, final, hs, rfl⟩ := exists_stages hd hh
  have hparents : (ofDraft c.draft final).parents.size = (sequence c.draft final).length := by
    simp [ofDraft, sequence]
  have hchildren : (ofDraft c.draft final).children.size = (sequence c.draft final).length := by
    simp [ofDraft, sequence]
  rw [hs.size_eq]
  exact ⟨hparents, hchildren, (size_depthsOf _).trans hparents⟩

end Hierarchy

/-! ## Types and names -/

namespace Lattice

variable {l l' : Lattice} {name : String} {t : TypeId}

/-- The type of a name and the name of a type undo each other. -/
theorem AtomsApart.typeId_eq_some_iff (hl : l.AtomsApart) :
    l.typeId? name = some t ↔ l.typeName? t = some name := by
  constructor
  · intro h
    unfold typeId? at h
    split at h
    · rename_i i hi
      cases h
      have hname := NameTable.index?_eq_some_iff.1 hi
      rw [typeName?, if_pos (show i < l.typeCount from NameTable.lt_size_of_name hname), hname]
    · obtain ⟨a, ha, rfl⟩ := Option.map_eq_some_iff.1 h
      rw [typeName?, if_neg (Nat.not_lt.2 (Nat.le_add_right _ a)), Nat.add_sub_cancel_left]
      exact NameTable.index?_eq_some_iff.1 ha
  · intro h
    rcases typeName_cases h with ⟨i, rfl, -, hi⟩ | ⟨a, rfl, -, ha⟩
    · exact typeId_of_hierarchy hi
    · rw [typeId?, hl name (NameTable.mem_of_name ha), NameTable.index?_eq_some_iff.2 ha]
      rfl

/-- The types with a name are those that there are. -/
theorem exists_typeName_iff : (∃ name, l.typeName? t = some name) ↔ l.HasType t := by
  refine ⟨fun ⟨name, h⟩ => ?_, HasType.exists_typeName⟩
  rcases typeName_cases h with ⟨i, rfl, -, hi⟩ | ⟨a, rfl, -, ha⟩
  · exact ⟨i, Nat.lt_add_right _ (NameTable.lt_size_of_name hi), rfl⟩
  · exact ⟨_, Nat.add_lt_add_left (NameTable.lt_size_of_name ha) _, rfl⟩

/-- The type of a name is an atom just when the hierarchy does not have the name. -/
theorem isAtom_iff_of_typeId (h : l.typeId? name = some t) :
    l.isAtom t = true ↔ l.hierarchy.names.index? name = none := by
  cases hname : l.hierarchy.names.index? name with
  | some i =>
    rw [typeId?, hname] at h
    cases h
    have hlt : i < l.typeCount := NameTable.lt_size_of_name (NameTable.index?_eq_some_iff.1 hname)
    simp [isAtom, hlt]
  | none =>
    rw [typeId?, hname] at h
    obtain ⟨a, -, rfl⟩ := Option.map_eq_some_iff.1 h
    simp [isAtom]

/-- A name has the type that it was given. -/
theorem typeId_intern (l : Lattice) (name : String) :
    (l.intern name).2.typeId? name = some (l.intern name).1 := by
  cases h : l.hierarchy.names.index? name with
  | some i => simp only [intern, h, typeId?]
  | none => simp only [intern, h, typeId?, NameTable.index?_intern, Option.map_some, typeCount]

theorem typeName_intern (h : l.typeName? t = some name) (other : String) :
    (l.intern other).2.typeName? t = some name := by
  have hcount : (l.intern other).2.typeCount = l.typeCount :=
    congrArg Hierarchy.size (hierarchy_intern ..)
  rcases typeName_cases h with ⟨i, rfl, -, hi⟩ | ⟨a, rfl, -, ha⟩
  · have hlt : i < l.typeCount := NameTable.lt_size_of_name hi
    rw [typeName?, hcount, if_pos hlt, hierarchy_intern, hi]
  · rw [typeName?, hcount, if_neg (Nat.not_lt.2 (Nat.le_add_right _ a)), Nat.add_sub_cancel_left]
    unfold intern
    split
    · exact ha
    · exact NameTable.name?_intern ha other

theorem typeName_congr (hhierarchy : l'.hierarchy = l.hierarchy) (hatoms : l'.atoms = l.atoms)
    (t : TypeId) : l'.typeName? t = l.typeName? t := by
  cases t with
  | bottom => rfl
  | of i => rw [typeName?, typeName?, typeCount, typeCount, hhierarchy, hatoms]

/-- A type keeps its name, whatever is asked and whichever atoms come up. -/
theorem Grown.typeName (h : Grown l l') (ht : l.typeName? t = some name) :
    l'.typeName? t = some name := by
  induction h with
  | refl => exact ht
  | intern other _ ih => exact typeName_intern ih other
  | unify s u _ ih => exact (typeName_congr (hierarchy_unify ..) (atoms_unify ..) t).trans ih
  | subsumes s u _ ih =>
    exact (typeName_congr (hierarchy_subsumes ..) (atoms_subsumes ..) t).trans ih
  | saturate _ ih =>
    exact saturate_induct (P := fun l => l.typeName? t = some name)
      (fun s u h => (typeName_congr (hierarchy_unify ..) (atoms_unify ..) t).trans h) ih

/-! ## Lattices of declarations -/

/-- What is said of the names of a lattice `l` of declared types that came after `l₁`. -/
structure Naming (types : List (String × List String)) (l₁ l : Lattice) : Prop where
  /-- The type of a name and the name of a type undo each other. -/
  inverse : ∀ name t, l.typeId? name = some t ↔ l.typeName? t = some name
  /-- Just the numbers below the count of types and atoms have names. -/
  named_iff : ∀ t, (∃ name, l.typeName? t = some name) ↔
    ∃ i < l.typeCount + l.atomCount, t = .of i
  /-- No type of the hierarchy is without a name, so that none has the links of another. -/
  sizes : l.hierarchy.parents.size = l.typeCount ∧ l.hierarchy.children.size = l.typeCount ∧
    l.hierarchy.depths.size = l.typeCount ∧ l.hierarchy.firstLeaf ≤ l.typeCount
  /-- Atoms have names that the hierarchy does not have, and numbers after those of its types. -/
  apart : ∀ name t, l.typeId? name = some t → (l.isAtom t = true ↔ l.isGrammarType t = false) ∧
    (l.isAtom t = true ↔ l.hierarchy.names.index? name = none)
  /-- A name is given the type that it has already, and else that of a new atom. -/
  interned : ∀ name, (l.intern name).2.typeId? name = some (l.intern name).1 ∧
    (∀ t, l.typeId? name = some t → (l.intern name).1 = t) ∧
    (l.typeId? name = none → (l.intern name).1 = .of (l.typeCount + l.atomCount))
  /-- Declared names have types of the hierarchy, which stand to one another as declared. -/
  declared : ∀ x y, Declarations.Declared types x → Declarations.Declared types y →
    ∃ i j, l.typeId? x = some (.of i) ∧ l.typeId? y = some (.of j) ∧
      i < l.typeCount ∧ j < l.typeCount ∧ (i = j ↔ x = y) ∧
      (l.hierarchy.Below i j ↔ ReflTransGen (Declarations.NamesParent types) x y)
  /-- What had a name has it still, and no other. -/
  kept : ∀ t name, l₁.typeName? t = some name → l.typeName? t = some name

/-- A new name is given the number after all others. -/
theorem intern_of_new (h : l.typeId? name = none) :
    (l.intern name).1 = .of (l.typeCount + l.atomCount) := by
  unfold typeId? at h
  split at h
  · cases h
  · rename_i hnone
    rw [intern, hnone]
    simp only [NameTable.intern, Option.map_eq_none_iff.1 h, atomCount]

/-- Names of types stay unique and stable: whatever declarations a lattice is built from, and
whatever it is asked and which atoms come up afterwards, each of its types has a name of its own
and keeps it. -/
theorem naming_of_grown {types : List (String × List String)} {d : Declarations}
    {l₀ l₁ l : Lattice} (hd : Declarations.initial.declareAll types = .ok d)
    (hbuilt : ofDeclarations d = .ok l₀) (h₁ : Grown l₀ l₁) (h : Grown l₁ l) :
    Naming types l₁ l := by
  have hdecl := Declarations.sound_of_declareAll Declarations.sound_initial hd
  have hl := ((sound_of_declarations hd hbuilt).of_grown h₁).of_grown h
  have hapart := ((atomsApart_ofDeclarations hbuilt).of_grown h₁).of_grown h
  have hhierarchy : Hierarchy.ofDeclarations d = .ok l.hierarchy := by
    rw [h.hierarchy_eq, h₁.hierarchy_eq]
    exact (eq_of_declarations hbuilt).1
  obtain ⟨hparents, hchildren, hdepths⟩ := Hierarchy.sizes_of_declarations hdecl hhierarchy
  refine {
    inverse := fun name t => hapart.typeId_eq_some_iff
    named_iff := fun t => exists_typeName_iff
    sizes := ⟨hparents, hchildren, hdepths, hl.hierarchy.firstLeaf_le⟩
    apart := fun name t ht => ⟨?_, isAtom_iff_of_typeId ht⟩
    interned := fun name => ⟨typeId_intern l name, fun t ht => ?_, intern_of_new⟩
    declared := fun x y hx hy => ?_
    kept := fun t name ht => h.typeName ht }
  · obtain ⟨i, -, rfl⟩ := exists_typeName_iff.1 ⟨name, hapart.typeId_eq_some_iff.1 ht⟩
    simp [isAtom, isGrammarType]
  · -- the type has the name still, and only one type has it
    have hkept := typeName_intern (hapart.typeId_eq_some_iff.1 ht) name
    have := typeId_intern l name
    rw [(hapart.intern name).typeId_eq_some_iff.2 hkept] at this
    exact (Option.some.inj this).symm
  · obtain ⟨i, j, hi, hj, hbelow⟩ := Hierarchy.below_iff_declared hd hhierarchy hx hy
    have hname := NameTable.index?_eq_some_iff.1 hi
    have hname' := NameTable.index?_eq_some_iff.1 hj
    refine ⟨i, j, typeId_of_hierarchy hname, typeId_of_hierarchy hname',
      NameTable.lt_size_of_name hname, NameTable.lt_size_of_name hname', ⟨?_, ?_⟩, hbelow⟩
    · rintro rfl
      exact Option.some.inj (hname.symm.trans hname')
    · rintro rfl
      exact Option.some.inj (hi.symm.trans hj)

/-- A declared type has the name that the closure gives to the first type that it inserts. -/
def colliding : List (String × List String) :=
  [("a", []), ("b", []), ("glbtype1", ["a", "b"]), ("c", ["a", "b"])]

/-- The inserted type gets another name, and the name of the declared one is not that of an atom. -/
theorem naming_of_grown_colliding : ∃ (d : Declarations) (l₀ : Lattice),
    Declarations.initial.declareAll colliding = .ok d ∧ ofDeclarations d = .ok l₀ ∧
    l₀.typeName? (.of 3) = some "glbtype1_" ∧ l₀.typeId? "glbtype1" = some (.of 4) ∧
    (l₀.intern "glbtype1").1 = .of 4 ∧ (l₀.intern "glbtype2").1 = .of 6 ∧
    Grown l₀ (l₀.intern "glbtype2").2 ∧
    Grown (l₀.intern "glbtype2").2 ((l₀.intern "glbtype2").2.intern "x").2 ∧
    Naming colliding (l₀.intern "glbtype2").2 ((l₀.intern "glbtype2").2.intern "x").2 := by
  obtain ⟨d, l₀, hd, hl, heq⟩ := exists_built colliding
    (fun l => (l.typeName? (.of 3), l.typeId? "glbtype1", (l.intern "glbtype1").1,
      (l.intern "glbtype2").1)) (a := (some "glbtype1_", some (.of 4), .of 4, .of 6))
    (by decide +kernel)
  simp only [Prod.mk.injEq] at heq
  obtain ⟨hinserted, hdeclared, hfound, hnew⟩ := heq
  have h₁ : Grown l₀ (l₀.intern "glbtype2").2 := .intern _ (.refl l₀)
  have h : Grown (l₀.intern "glbtype2").2 ((l₀.intern "glbtype2").2.intern "x").2 :=
    .intern _ (.refl _)
  exact ⟨d, l₀, hd, hl, hinserted, hdeclared, hfound, hnew, h₁, h, naming_of_grown hd hl h₁ h⟩

end Lattice

end FeatureLogic
