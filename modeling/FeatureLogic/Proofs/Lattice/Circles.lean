import FeatureLogic.Proofs.Lattice.Convergence

/-!
What is reported of declarations that run in a circle. It is the first type that is never ready, and
these are the types from which parents lead into a circle (`Draft.order_eq_error_iff`): those on a
circle and all that are below one. So the reported type need not be on a circle itself; whether it
is depends on the order of the declarations (`Lattice.cyclicHierarchy_iff_first`).
-/

open Relation

namespace FeatureLogic

namespace Declarations

/-- The type's parents lead, in no step or in several, to a type that leads back to itself. -/
def LeadsToCircle (types : List (String × List String)) (name : String) : Prop :=
  ∃ on, ReflTransGen (NamesParent types) name on ∧ TransGen (NamesParent types) on on

/-- The list has `x` before `y`. -/
def DeclaredBefore (types : List (String × List String)) (x y : String) : Prop :=
  (types.map Prod.fst).idxOf x < (types.map Prod.fst).idxOf y

theorem LeadsToCircle.of_circle {types : List (String × List String)} {name : String}
    (h : TransGen (NamesParent types) name name) : LeadsToCircle types name :=
  ⟨name, ReflTransGen.refl, h⟩

theorem LeadsToCircle.namesParent {types : List (String × List String)} {name : String}
    (h : LeadsToCircle types name) : ∃ parent, NamesParent types name parent := by
  obtain ⟨on, hon, hcircle⟩ := h
  obtain ⟨parent, hparent, -⟩ := TransGen.head'_iff.1 (hcircle.trans_right hon)
  exact ⟨parent, hparent⟩

theorem LeadsToCircle.mem {types : List (String × List String)} {name : String}
    (h : LeadsToCircle types name) : name ∈ types.map Prod.fst := by
  obtain ⟨parent, parents, hmem, -⟩ := h.namesParent
  exact List.mem_map.2 ⟨_, hmem, rfl⟩

theorem LeadsToCircle.exists_number {types : List (String × List String)} {d : Declarations}
    (hd : initial.declareAll types = .ok d) {name : String} (h : LeadsToCircle types name) :
    ∃ t, d.names.name? t = some name := by
  obtain ⟨parent, parents, hmem, -⟩ := h.namesParent
  exact (declared_iff hd).1 (.inr ⟨parents, hmem⟩)

/-- Types are numbered in the order of their declarations. -/
theorem declaredBefore_iff {types : List (String × List String)} {d : Declarations}
    (h : initial.declareAll types = .ok d) {t u : Nat} {x y : String}
    (ht : d.names.name? t = some x) (hu : d.names.name? u = some y)
    (hx : x ∈ types.map Prod.fst) (hy : y ∈ types.map Prod.fst) :
    DeclaredBefore types x y ↔ t < u := by
  have hnd : (topName :: types.map Prod.fst).Nodup := toList_names h ▸ d.names.nodup
  have hplace : ∀ {t x}, d.names.name? t = some x → x ∈ types.map Prod.fst →
      t = (types.map Prod.fst).idxOf x + 1 := by
    intro t x ht hx
    have hget : (topName :: types.map Prod.fst)[t]? = some x := by
      rw [← toList_names h]
      exact (Array.getElem?_toList).trans ht
    obtain ⟨hlt, rfl⟩ := List.getElem?_eq_some_iff.1 hget
    cases t with
    | zero => exact absurd hx (List.nodup_cons.1 hnd).1
    | succ t =>
      rw [List.getElem_cons_succ, (List.nodup_cons.1 hnd).2.idxOf_getElem]
  rw [DeclaredBefore, hplace ht hx, hplace hu hy]
  omega

end Declarations

namespace Draft

theorem leadsToCircle_iff_declared {types : List (String × List String)} {d : Declarations}
    {draft : Draft} (h : Declarations.initial.declareAll types = .ok d)
    (hdraft : ofDeclarations d = .ok draft) {t : Nat} {name : String}
    (ht : d.names.name? t = some name) :
    draft.LeadsToCircle t ↔ Declarations.LeadsToCircle types name := by
  have hd := Declarations.sound_of_declareAll Declarations.sound_initial h
  obtain ⟨hlinked, -⟩ := linked_of_declarations hd hdraft
  constructor
  · rintro ⟨c, htc, hc⟩
    obtain ⟨p, hp, -⟩ := TransGen.head'_iff.1 hc
    obtain ⟨on, hon⟩ := exists_name_of_lt h hdraft (hlinked.child_lt hp)
    exact ⟨on, (below_iff_declared h hdraft ht hon).1 htc,
      (circle_iff_declared h hdraft hon).1 hc⟩
  · rintro ⟨on, hname, hcircle⟩
    obtain ⟨c, hc⟩ := (Declarations.LeadsToCircle.of_circle hcircle).exists_number h
    exact ⟨c, (below_iff_declared h hdraft ht hc).2 hname,
      (circle_iff_declared h hdraft hc).2 hcircle⟩

end Draft

namespace Lattice

/-- A circle is reported when the draft of the declarations has no order. The closed draft always
has one. -/
theorem ofDeclarations_eq_cyclic_iff {d : Declarations} (hd : d.Sound) {draft : Draft}
    (hdraft : Draft.ofDeclarations d = .ok draft) {name : String} :
    ofDeclarations d = .error (.cyclicHierarchy name) ↔
      ∃ t, draft.order = .error t ∧ draft.nameOf t = name := by
  rw [ofDeclarations, Hierarchy.ofDeclarations]
  cases horder : draft.ordering with
  | error e =>
    simp only [hdraft, horder, bind, Except.bind, Except.map, Except.error.injEq]
    rw [Draft.ordering] at horder
    split at horder
    · cases horder
    · rename_i t ht
      cases horder
      simp [ht]
  | ok order =>
    obtain ⟨closed, final, hclosed, hfinal⟩ := Draft.exists_close hd hdraft horder
    simp only [hdraft, horder, hclosed, hfinal, bind, Except.bind, Except.map, pure, Except.pure]
    rw [Draft.ordering] at horder
    split at horder
    · rename_i ht
      simp [ht]
    · cases horder

section Declared

variable {types : List (String × List String)} {d : Declarations}
  (hd : Declarations.initial.declareAll types = .ok d)
  (hknown : ∀ child parent, Declarations.NamesParent types child parent →
    Declarations.Declared types parent)
include hd hknown

/-- The first type that leads into a circle is reported. -/
theorem ofDeclarations_eq_cyclic_iff_first (name : String) :
    ofDeclarations d = .error (.cyclicHierarchy name) ↔
      Declarations.LeadsToCircle types name ∧ ∀ other, Declarations.LeadsToCircle types other →
        ¬ Declarations.DeclaredBefore types other name := by
  have hsound := Declarations.sound_of_declareAll Declarations.sound_initial hd
  obtain ⟨draft, hdraft⟩ := (Draft.exists_draft_iff hd).2 hknown
  obtain ⟨hlinked, hnames, -⟩ := Draft.linked_of_declarations hsound hdraft
  have hnameOf : ∀ {t x}, d.names.name? t = some x → draft.nameOf t = x := by
    intro t x hx
    rw [Draft.nameOf, hnames, show d.names.names[t]? = some x from hx, Option.getD_some]
  simp only [ofDeclarations_eq_cyclic_iff hsound hdraft, Draft.order_eq_error_iff hlinked]
  constructor
  · rintro ⟨t, ⟨ht, hleads, hmin⟩, rfl⟩
    obtain ⟨name, hname⟩ := Draft.exists_name_of_lt hd hdraft ht
    rw [hnameOf hname]
    have hleads := (Draft.leadsToCircle_iff_declared hd hdraft hname).1 hleads
    refine ⟨hleads, fun other hother hbefore => ?_⟩
    obtain ⟨u, hu⟩ := hother.exists_number hd
    refine hmin u ((Declarations.declaredBefore_iff hd hu hname hother.mem hleads.mem).1 hbefore) ?_
    exact (Draft.leadsToCircle_iff_declared hd hdraft hu).2 hother
  · rintro ⟨hleads, hmin⟩
    obtain ⟨t, ht⟩ := hleads.exists_number hd
    have htleads := (Draft.leadsToCircle_iff_declared hd hdraft ht).2 hleads
    obtain ⟨p, hp, -⟩ := Draft.leadsToCircle_iff_parent.1 htleads
    refine ⟨t, ⟨hlinked.child_lt hp, htleads, fun u hut hu => ?_⟩, hnameOf ht⟩
    obtain ⟨other, hother⟩ := Draft.exists_name_of_lt hd hdraft
      (Nat.lt_trans hut (hlinked.child_lt hp))
    have holeads := (Draft.leadsToCircle_iff_declared hd hdraft hother).1 hu
    exact hmin other holeads
      ((Declarations.declaredBefore_iff hd hother ht holeads.mem hleads.mem).2 hut)

/-- Of declarations whose parents are all declared a circle is reported by the first type that leads
into one. This type is on a circle itself just when every type that only leads into one is declared
after a type that is on one. -/
theorem cyclicHierarchy_iff_first :
    (∀ name, ofDeclarations d = .error (.cyclicHierarchy name) ↔
      Declarations.LeadsToCircle types name ∧
        ∀ other, Declarations.LeadsToCircle types other →
          ¬ Declarations.DeclaredBefore types other name) ∧
    ∀ name, ofDeclarations d = .error (.cyclicHierarchy name) →
      (TransGen (Declarations.NamesParent types) name name ↔
        ∀ other, Declarations.LeadsToCircle types other →
          ¬ TransGen (Declarations.NamesParent types) other other →
          ∃ on, TransGen (Declarations.NamesParent types) on on ∧
            Declarations.DeclaredBefore types on other) := by
  have hfirst := ofDeclarations_eq_cyclic_iff_first hd hknown
  refine ⟨hfirst, fun name herror => ?_⟩
  obtain ⟨hleads, hmin⟩ := (hfirst name).1 herror
  constructor
  · intro hcircle other hother hnot
    refine ⟨name, hcircle, Nat.lt_of_le_of_ne (Nat.not_lt.1 (hmin other hother)) fun heq => ?_⟩
    exact hnot ((List.idxOf_inj hleads.mem).1 heq ▸ hcircle)
  · intro hall
    by_contra hnot
    obtain ⟨on, hon, hbefore⟩ := hall name hleads hnot
    exact hmin on (.of_circle hon) hbefore

end Declared

section Below

open Declarations

/-- A type below a circle, declared before it. -/
def belowCircle : List (String × List String) := [("x", ["a"]), ("a", ["a"])]

theorem namesParent_belowCircle_iff {child parent : String} :
    NamesParent belowCircle child parent ↔ (child = "x" ∨ child = "a") ∧ parent = "a" := by
  constructor
  · rintro ⟨parents, hmem, hparent⟩
    simp only [belowCircle, List.mem_cons, Prod.mk.injEq, List.not_mem_nil, or_false] at hmem
    rcases hmem with ⟨rfl, rfl⟩ | ⟨rfl, rfl⟩ <;> simpa using hparent
  · rintro ⟨rfl | rfl, rfl⟩ <;> exact ⟨["a"], by simp [belowCircle], by simp⟩

theorem known_belowCircle (child parent : String) (h : NamesParent belowCircle child parent) :
    Declared belowCircle parent := by
  obtain ⟨-, rfl⟩ := namesParent_belowCircle_iff.1 h
  exact .inr ⟨["a"], by simp [belowCircle]⟩

theorem exists_declared_belowCircle : ∃ d, initial.declareAll belowCircle = .ok d := by
  have hok : (initial.declareAll belowCircle).isOk = true := by decide +kernel
  cases hd : initial.declareAll belowCircle with
  | error e => simp [hd, Except.isOk, Except.toBool] at hok
  | ok d => exact ⟨d, rfl⟩

theorem cyclicHierarchy_iff_first_below : ∃ d : Declarations,
    initial.declareAll belowCircle = .ok d ∧
    (∀ child parent, NamesParent belowCircle child parent → Declared belowCircle parent) ∧
    (∀ name, ofDeclarations d = .error (.cyclicHierarchy name) ↔
      LeadsToCircle belowCircle name ∧
        ∀ other, LeadsToCircle belowCircle other → ¬ DeclaredBefore belowCircle other name) ∧
    ∀ name, ofDeclarations d = .error (.cyclicHierarchy name) →
      (TransGen (NamesParent belowCircle) name name ↔
        ∀ other, LeadsToCircle belowCircle other →
          ¬ TransGen (NamesParent belowCircle) other other →
          ∃ on, TransGen (NamesParent belowCircle) on on ∧ DeclaredBefore belowCircle on other) := by
  obtain ⟨d, hd⟩ := exists_declared_belowCircle
  exact ⟨d, hd, known_belowCircle, cyclicHierarchy_iff_first hd known_belowCircle⟩

/-- What is reported is not always on a circle. -/
theorem not_forall_reported_on_circle : ¬ ∀ (types : List (String × List String)) (d : Declarations),
    initial.declareAll types = .ok d →
    (∀ child parent, NamesParent types child parent → Declared types parent) →
    ∀ name, ofDeclarations d = .error (.cyclicHierarchy name) →
      TransGen (NamesParent types) name name := by
  intro hall
  obtain ⟨d, hd⟩ := exists_declared_belowCircle
  have hcircle : TransGen (NamesParent belowCircle) "a" "a" :=
    TransGen.single (namesParent_belowCircle_iff.2 ⟨.inr rfl, rfl⟩)
  have hreported : ofDeclarations d = .error (.cyclicHierarchy "x") :=
    (ofDeclarations_eq_cyclic_iff_first hd known_belowCircle "x").2
      ⟨⟨"a", ReflTransGen.single (namesParent_belowCircle_iff.2 ⟨.inl rfl, rfl⟩), hcircle⟩,
        fun other _ => Nat.not_lt_zero _⟩
  -- all that is ever reached by following parents is the other type
  obtain ⟨child, -, hparent⟩ :=
    TransGen.tail'_iff.1 (hall belowCircle d hd known_belowCircle "x" hreported)
  exact absurd (namesParent_belowCircle_iff.1 hparent).2 (by decide)

end Below

end Lattice

end FeatureLogic
