import FeatureLogic.Proofs.Lattice.Insertion

/-!
What declarations say of their types, by name (`Declarations.NamesParent`), is what the links of
their draft say by position (`Draft.below_iff_declared`).
-/

open Relation

namespace FeatureLogic

/-! ## What declarations say -/

namespace Declarations

/-- The name of the universal type or of a type of the list. -/
def Declared (types : List (String × List String)) (name : String) : Prop :=
  name = topName ∨ ∃ parents, (name, parents) ∈ types

/-- The list names `parent` for a parent of `child`. A type without parents is below the universal
type. -/
def NamesParent (types : List (String × List String)) (child parent : String) : Prop :=
  ∃ parents, (child, parents) ∈ types ∧ (parent ∈ parents ∨ parents = [] ∧ parent = topName)

theorem declare_ok {d d' : Declarations} {name : String} {parents : List String}
    (h : d.declare name parents = .ok d') :
    d'.names.toList = d.names.toList ++ [name] ∧ d'.parents.toList =
      d.parents.toList ++ [if parents.isEmpty then [topName] else parents] := by
  unfold declare at h
  split at h
  · cases h
  split at h
  · cases h
  rename_i hnew
  cases h
  refine ⟨?_, by simp⟩
  rw [NameTable.insert]
  split
  · simp_all
  · simp [NameTable.toList]

theorem declareAll_ok {types : List (String × List String)} {d d' : Declarations}
    (h : d.declareAll types = .ok d') :
    d'.names.toList = d.names.toList ++ types.map Prod.fst ∧ d'.parents.toList =
      d.parents.toList ++ types.map fun type => if type.2.isEmpty then [topName] else type.2 := by
  induction types generalizing d with
  | nil =>
    cases h
    simp
  | cons type rest ih =>
    simp only [declareAll, List.foldlM_cons] at h
    cases hfirst : d.declare type.1 type.2 with
    | error e => simp [hfirst, bind, Except.bind] at h
    | ok next =>
      simp only [hfirst, bind, Except.bind] at h
      obtain ⟨hnames, hparents⟩ := ih h
      obtain ⟨hname, hparent⟩ := declare_ok hfirst
      rw [hnames, hparents, hname, hparent]
      simp

theorem toList_names_initial : initial.names.toList = [topName] := by
  rw [initial, NameTable.insert]
  split
  · rename_i h
    simp [NameTable.index?, NameTable.empty] at h
  · rfl

section Declared

variable {types : List (String × List String)} {d : Declarations}
  (h : initial.declareAll types = .ok d)
include h

theorem toList_names : d.names.toList = topName :: types.map Prod.fst := by
  rw [(declareAll_ok h).1, toList_names_initial]
  rfl

theorem toList_parents : d.parents.toList =
    [] :: types.map fun type => if type.2.isEmpty then [topName] else type.2 :=
  (declareAll_ok h).2

/-- A type is declared when it has a number. -/
theorem declared_iff {name : String} : Declared types name ↔ ∃ t, d.names.name? t = some name := by
  have hmem : name ∈ d.names.toList ↔ ∃ t, d.names.name? t = some name := by
    rw [NameTable.toList, Array.mem_toList_iff, Array.mem_iff_getElem?]
    rfl
  rw [← hmem, toList_names h, List.mem_cons]
  simp [Declared]

/-- The list of parents of a numbered type is that of its declaration. -/
theorem namesParent_iff {t : Nat} {child : String} (ht : d.names.name? t = some child)
    (parent : String) :
    NamesParent types child parent ↔ ∃ list, d.parents[t]? = some list ∧ parent ∈ list := by
  have hname : d.names.toList[t]? = some child := (Array.getElem?_toList).trans ht
  have hget : d.parents[t]? = d.parents.toList[t]? := by simp
  rw [hget, toList_parents h]
  rw [toList_names h] at hname
  have hnd : (topName :: types.map Prod.fst).Nodup := toList_names h ▸ d.names.nodup
  cases t with
  | zero =>
    -- the universal type has no declaration
    simp only [List.getElem?_cons_zero, Option.some.injEq] at hname
    subst hname
    refine iff_of_false ?_ (by simp)
    rintro ⟨list, hmem, -⟩
    exact (List.nodup_cons.1 hnd).1 (List.mem_map.2 ⟨_, hmem, rfl⟩)
  | succ t =>
    simp only [List.getElem?_cons_succ, List.getElem?_map, Option.map_eq_some_iff] at hname ⊢
    obtain ⟨⟨child, parents⟩, htype, rfl⟩ := hname
    -- every name is declared once
    have hsame : ∀ list, (child, list) ∈ types → list = parents := by
      intro list hmem
      have := List.inj_on_of_nodup_map (List.nodup_cons.1 hnd).2 hmem (List.mem_of_getElem? htype) rfl
      exact congrArg Prod.snd this
    constructor
    · rintro ⟨list, hmem, hparent⟩
      obtain rfl := hsame list hmem
      refine ⟨_, ⟨_, htype, rfl⟩, ?_⟩
      rcases hparent with hparent | ⟨rfl, rfl⟩
      · have : list ≠ [] := List.ne_nil_of_mem hparent
        simpa [this] using hparent
      · simp
    · rintro ⟨list, ⟨type, htype', rfl⟩, hparent⟩
      rw [htype] at htype'
      cases htype'
      refine ⟨parents, List.mem_of_getElem? htype, ?_⟩
      split at hparent
      · rename_i hnil
        exact .inr ⟨by simpa using hnil, by simpa using hparent⟩
      · exact .inl hparent

end Declared

end Declarations

/-! ## The draft of declarations -/

namespace Draft

/-- Parents are resolved to the numbers of their names, unless one of them has none. -/
theorem resolve_fold_spec {names : NameTable} {type : String} (list : List String)
    {found : List Nat} {result : Except LatticeError (List Nat)}
    (h : list.foldlM (fun found parent =>
      match names.index? parent with
      | none => .error (.unknownParent type parent)
      | some p => .ok (if p ∈ found then found else found ++ [p])) found = result) :
    match result with
    | .ok ps => (∀ parent ∈ list, ∃ p, names.index? parent = some p) ∧
        ∀ p, p ∈ ps ↔ p ∈ found ∨ ∃ parent ∈ list, names.index? parent = some p
    | .error e => ∃ parent ∈ list, names.index? parent = none ∧ e = .unknownParent type parent := by
  induction list generalizing found with
  | nil =>
    subst h
    simp [pure, Except.pure]
  | cons parent rest ih =>
    rw [List.foldlM_cons] at h
    cases hq : names.index? parent with
    | none =>
      simp only [hq, bind, Except.bind] at h
      subst h
      exact ⟨parent, List.mem_cons_self, hq, rfl⟩
    | some q =>
      simp only [hq, bind, Except.bind] at h
      have hrest := ih h
      cases result with
      | error e => exact hrest.imp fun _ => And.imp_left (List.mem_cons_of_mem _)
      | ok ps =>
        obtain ⟨hknown, hmem⟩ := hrest
        -- a parent that was found before is not taken twice
        have hadd : ∀ p, p ∈ (if q ∈ found then found else found ++ [q]) ↔ p ∈ found ∨ q = p := by
          intro p
          split
          · rename_i hfound
            exact ⟨.inl, fun hp => hp.elim id fun heq => heq ▸ hfound⟩
          · simp [eq_comm]
        refine ⟨List.forall_mem_cons.2 ⟨⟨q, hq⟩, hknown⟩, fun p => ?_⟩
        rw [hmem, hadd]
        simp only [List.mem_cons, exists_eq_or_imp, hq, Option.some.injEq, or_assoc]

theorem resolveParents_spec {names : NameTable} {type : String} {list : List String}
    {ps : List Nat} (h : resolveParents names type list = .ok ps) :
    (∀ parent ∈ list, ∃ p, names.index? parent = some p) ∧
      ∀ p, p ∈ ps ↔ ∃ parent ∈ list, names.index? parent = some p := by
  obtain ⟨hknown, hmem⟩ := resolve_fold_spec list h
  exact ⟨hknown, fun p => by simpa using hmem p⟩

theorem resolveParents_error {names : NameTable} {type : String} {list : List String}
    {e : LatticeError} (h : resolveParents names type list = .error e) :
    ∃ parent ∈ list, names.index? parent = none ∧ e = .unknownParent type parent :=
  resolve_fold_spec list h

/-- Only a parent without a number is in the way of a draft. -/
theorem ofDeclarations_error {d : Declarations} {e : LatticeError}
    (h : ofDeclarations d = .error e) : ∃ type parent, e = .unknownParent type parent := by
  simp only [ofDeclarations] at h
  cases hm : (d.names.toList.zip d.parents.toList).mapM
      fun x => resolveParents d.names x.1 x.2 with
  | error e' =>
    simp only [hm, bind, Except.bind, Except.error.injEq] at h
    obtain ⟨⟨type, list⟩, -, hres⟩ := mapM_error hm
    obtain ⟨parent, -, -, hparent⟩ := resolveParents_error hres
    exact ⟨type, parent, h ▸ hparent⟩
  | ok lists => simp [hm, bind, Except.bind, pure, Except.pure] at h

/-- The parents of a type in the draft are those that its declaration names. -/
theorem mem_parentsOf_iff {d : Declarations} (hd : d.Sound) {draft : Draft}
    (h : ofDeclarations d = .ok draft) {t : Nat} {list : List String}
    (ht : d.parents[t]? = some list) :
    (∀ parent ∈ list, ∃ p, d.names.index? parent = some p) ∧
      ∀ p, p ∈ draft.parentsOf t ↔ ∃ parent ∈ list, d.names.index? parent = some p := by
  obtain ⟨-, -, -, -, hresolved⟩ := ofDeclarations_ok hd h
  obtain ⟨hlt, rfl⟩ := Array.getElem?_eq_some_iff.1 ht
  exact resolveParents_spec (hresolved (Nat.lt_of_lt_of_eq hlt hd.parents_size) hlt)

section Declared

variable {types : List (String × List String)} {d : Declarations} {draft : Draft}
  (h : Declarations.initial.declareAll types = .ok d) (hdraft : ofDeclarations d = .ok draft)
include h hdraft

theorem namesParent_iff_mem {t p : Nat} {child parent : String}
    (ht : d.names.name? t = some child) (hp : d.names.name? p = some parent) :
    Declarations.NamesParent types child parent ↔ p ∈ draft.parentsOf t := by
  have hd := Declarations.sound_of_declareAll Declarations.sound_initial h
  have hlt : t < d.parents.size := by
    rw [hd.parents_size]
    exact (Array.getElem?_eq_some_iff.1 ht).1
  rw [Declarations.namesParent_iff h ht,
    (mem_parentsOf_iff hd hdraft (Array.getElem?_eq_getElem hlt)).2, Array.getElem?_eq_getElem hlt]
  constructor
  · rintro ⟨list, hlist, hmem⟩
    cases hlist
    exact ⟨parent, hmem, NameTable.index?_eq_some_iff.2 hp⟩
  · rintro ⟨name, hmem, hname⟩
    rw [NameTable.index?_eq_some_iff, hp] at hname
    cases hname
    exact ⟨_, rfl, hmem⟩

/-- A parent that is named has a number. -/
theorem exists_of_namesParent {child parent : String}
    (hparent : Declarations.NamesParent types child parent) :
    ∃ p, d.names.name? p = some parent := by
  have hd := Declarations.sound_of_declareAll Declarations.sound_initial h
  obtain ⟨t, ht⟩ := (Declarations.declared_iff h).1 (.inr (hparent.imp fun _ => And.left))
  obtain ⟨list, hlist, hmem⟩ := (Declarations.namesParent_iff h ht parent).1 hparent
  obtain ⟨p, hp⟩ := (mem_parentsOf_iff hd hdraft hlist).1 parent hmem
  exact ⟨p, NameTable.index?_eq_some_iff.1 hp⟩

/-- Every number of a type has a name. -/
theorem exists_name_of_lt {p : Nat} (hp : p < draft.size) :
    ∃ name, d.names.name? p = some name := by
  have hd := Declarations.sound_of_declareAll Declarations.sound_initial h
  obtain ⟨-, hnames, -⟩ := linked_of_declarations hd hdraft
  rw [size, hnames] at hp
  exact ⟨_, Array.getElem?_eq_getElem hp⟩

/-- One type is below another in the draft when declarations lead from it to the other. -/
theorem below_iff_declared {t u : Nat} {x y : String} (ht : d.names.name? t = some x)
    (hu : d.names.name? u = some y) :
    draft.Below t u ↔ ReflTransGen (Declarations.NamesParent types) x y := by
  have hd := Declarations.sound_of_declareAll Declarations.sound_initial h
  obtain ⟨hlinked, -⟩ := linked_of_declarations hd hdraft
  constructor
  · intro htu
    induction htu generalizing y with
    | refl =>
      rw [ht] at hu
      cases hu
      exact ReflTransGen.refl
    | tail _ hp ih =>
      obtain ⟨z, hz⟩ := exists_name_of_lt h hdraft (hlinked.child_lt hp)
      exact (ih hz).tail ((namesParent_iff_mem h hdraft hz hu).2 hp)
  · intro hxy
    induction hxy generalizing u with
    | refl =>
      rw [NameTable.index?_eq_some_iff.2 ht |>.symm.trans (NameTable.index?_eq_some_iff.2 hu)
        |> Option.some.inj]
      exact ReflTransGen.refl
    | tail _ hparent ih =>
      obtain ⟨z, hz⟩ := (Declarations.declared_iff h).1 (.inr (hparent.imp fun _ => And.left))
      exact (ih hz).tail ((namesParent_iff_mem h hdraft hz hu).1 hparent)

/-- A type is on a circle in the draft just when it is by its name. -/
theorem circle_iff_declared {t : Nat} {name : String} (ht : d.names.name? t = some name) :
    TransGen (fun t p => p ∈ draft.parentsOf t) t t ↔
      TransGen (Declarations.NamesParent types) name name := by
  have hd := Declarations.sound_of_declareAll Declarations.sound_initial h
  obtain ⟨hlinked, -⟩ := linked_of_declarations hd hdraft
  rw [TransGen.head'_iff, TransGen.head'_iff]
  constructor
  · rintro ⟨p, hp, hback⟩
    obtain ⟨parent, hparent⟩ := exists_name_of_lt h hdraft (hlinked.parent_lt hp)
    exact ⟨parent, (namesParent_iff_mem h hdraft ht hparent).2 hp,
      (below_iff_declared h hdraft hparent ht).1 hback⟩
  · rintro ⟨parent, hparent, hback⟩
    obtain ⟨p, hp⟩ := exists_of_namesParent h hdraft hparent
    exact ⟨p, (namesParent_iff_mem h hdraft ht hp).1 hparent,
      (below_iff_declared h hdraft hp ht).2 hback⟩

/-- The draft has no circle just when the declarations have none. -/
theorem acyclic_iff_declared : (∀ t, ¬ TransGen (fun t p => p ∈ draft.parentsOf t) t t) ↔
    ∀ name, ¬ TransGen (Declarations.NamesParent types) name name := by
  have hd := Declarations.sound_of_declareAll Declarations.sound_initial h
  obtain ⟨hlinked, -⟩ := linked_of_declarations hd hdraft
  refine ⟨fun hacyclic name hcircle => ?_, fun hacyclic t hcircle => ?_⟩
  · obtain ⟨parent, hparent, -⟩ := TransGen.head'_iff.1 hcircle
    obtain ⟨t, ht⟩ := (Declarations.declared_iff h).1 (.inr (hparent.imp fun _ => And.left))
    exact hacyclic t ((circle_iff_declared h hdraft ht).2 hcircle)
  · obtain ⟨p, hp, -⟩ := TransGen.head'_iff.1 hcircle
    obtain ⟨name, hname⟩ := exists_name_of_lt h hdraft (hlinked.child_lt hp)
    exact hacyclic name ((circle_iff_declared h hdraft hname).1 hcircle)

omit hdraft in
/-- There is a draft just when every parent that is named is declared. -/
theorem exists_draft_iff : (∃ draft, ofDeclarations d = .ok draft) ↔
    ∀ child parent, Declarations.NamesParent types child parent →
      Declarations.Declared types parent := by
  constructor
  · rintro ⟨draft, hdraft⟩ child parent hparent
    exact (Declarations.declared_iff h).2 (exists_of_namesParent h hdraft hparent)
  · intro hdeclared
    cases hm : (d.names.toList.zip d.parents.toList).mapM
        fun x => resolveParents d.names x.1 x.2 with
    | ok lists => exact ⟨_, by simp only [ofDeclarations, hm, bind, Except.bind]; rfl⟩
    | error e =>
      -- the parent that was not found is named, so it is declared
      obtain ⟨⟨child, list⟩, hx, hres⟩ := mapM_error hm
      obtain ⟨parent, hparent, hnone, -⟩ := resolveParents_error hres
      obtain ⟨t, ht⟩ := List.getElem?_of_mem hx
      obtain ⟨hchild, hlist⟩ := List.getElem?_zip_eq_some.1 ht
      have hnamed := (Declarations.namesParent_iff h
        (Array.getElem?_toList.symm.trans hchild) parent).2
        ⟨list, Array.getElem?_toList.symm.trans hlist, hparent⟩
      obtain ⟨p, hp⟩ := (Declarations.declared_iff h).1 (hdeclared child parent hnamed)
      rw [NameTable.index?_eq_some_iff.2 hp] at hnone
      cases hnone

end Declared

end Draft

end FeatureLogic
