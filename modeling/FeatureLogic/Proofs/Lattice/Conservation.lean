import FeatureLogic.Proofs.Lattice.Declared
import FeatureLogic.Proofs.Lattice.Knowledge

/-!
The closure under greatest lower bounds is conservative. It puts new types between the declared
ones and leaves these as they stand to one another (`Draft.Extends`), so a lattice tells of two
declared types just what their declarations say (`Lattice.subsumes_iff_declared`).
-/

open Relation

namespace FeatureLogic

namespace NameTable

theorem toList_foldl_insert (list : List String) (t : NameTable) (hnd : list.Nodup)
    (hnew : ∀ name ∈ list, name ∉ t.toList) :
    (list.foldl insert t).toList = t.toList ++ list := by
  induction list generalizing t with
  | nil => simp
  | cons name rest ih =>
    obtain ⟨hname, hrest⟩ := List.nodup_cons.1 hnd
    have hfirst : (t.insert name).toList = t.toList ++ [name] := by
      have hnone : t.index? name = none := by
        simpa [index?, toList] using hnew name (by simp)
      rw [insert]
      split
      · simp_all
      · simp [toList]
    rw [List.foldl_cons, ih _ hrest, hfirst, List.append_assoc, List.singleton_append]
    intro other hother
    rw [hfirst, List.mem_append, List.mem_singleton, not_or]
    exact ⟨hnew other (by simp [hother]), fun heq => hname (heq ▸ hother)⟩

/-- A table of distinct names has them in the order given. -/
theorem name?_ofList {list : List String} (hnd : list.Nodup) (i : Nat) :
    (ofList list).name? i = list[i]? := by
  have hlist : (ofList list).toList = list :=
    toList_foldl_insert list empty hnd fun _ _ => List.not_mem_nil
  exact Array.getElem?_toList.symm.trans (congrArg (·[i]?) hlist)

end NameTable

namespace Draft

/-! ## Types that stay as they are -/

/-- The second draft has the types of the first under their names, and they stand to one another as
they did. -/
structure Extends (d d' : Draft) : Prop where
  size_le : d.size ≤ d'.size
  nameOf_eq : ∀ {t}, t < d.size → d'.nameOf t = d.nameOf t
  below_iff : ∀ {t u}, t < d.size → u < d.size → (d'.Below t u ↔ d.Below t u)

theorem Extends.trans {d₁ d₂ d₃ : Draft} (h : d₁.Extends d₂) (h' : d₂.Extends d₃) :
    d₁.Extends d₃ where
  size_le := Nat.le_trans h.size_le h'.size_le
  nameOf_eq ht := (h'.nameOf_eq (Nat.lt_of_lt_of_le ht h.size_le)).trans (h.nameOf_eq ht)
  below_iff ht hu := (h'.below_iff (Nat.lt_of_lt_of_le ht h.size_le)
    (Nat.lt_of_lt_of_le hu h.size_le)).trans (h.below_iff ht hu)

theorem extends_markLeaves (d : Draft) (order : List Nat) : d.Extends (d.markLeaves order) := by
  obtain ⟨hnames, hparents, -, -⟩ := d.markLeaves_same order
  have hsize : (d.markLeaves order).size = d.size := congrArg Array.size hnames
  have hup : (d.markLeaves order).parentsOf = d.parentsOf :=
    funext fun t => congrArg (fun parents => parents[t]?.getD []) hparents
  refine ⟨Nat.le_of_eq hsize.symm, fun _ => ?_, fun _ _ => ?_⟩
  · rw [nameOf, hnames, nameOf]
  · rw [Below, hup, Below]

/-- An insertion keeps what is below what. -/
theorem extends_insertBetween {d : Draft} (h : d.Linked) {parents children : List Nat}
    (hi : d.Insertable parents children) (name : String) :
    d.Extends (Closing.insertBetween d name parents children) where
  size_le := by
    rw [size_insertBetween]
    exact Nat.le_succ _
  nameOf_eq := by
    intro t ht
    have hne : t ≠ d.names.size := Nat.ne_of_lt ht
    simp only [nameOf, Closing.insertBetween, Array.getElem?_push, hne, if_false]
  below_iff := below_insertBetween h hi

end Draft

/-! ## Along a closure -/

namespace Closing

/-- What every insertion keeps holds after a scan. -/
theorem Sound.scan_induct {n : Nat} {P : Closing → Prop}
    (hstep : ∀ {c meet}, c.Sound n → Missing n c meet → P c → P (c.insertMeet meet)) (fuel : Nat)
    {a b : Nat} {c : Closing} (h : c.Sound n) (ha : a < c.codes.size) (hP : P c) :
    P (Closing.scan fuel a b c) := by
  induction fuel generalizing a b c with
  | zero => exact hP
  | succ fuel ih =>
    unfold Closing.scan
    split
    · rename_i hb
      split
      · rename_i meet hm
        have hmissing := missing_of_missingMeet h ha hb hm
        refine ih (h.insertMeet hmissing) ?_ (hstep h hmissing hP)
        rw [size_insertMeet]
        omega
      · exact ih h ha hP
    · split
      · rename_i hnext
        exact ih h hnext hP
      · exact hP

/-- What every insertion keeps holds after any number of rounds. -/
theorem Sound.rounds_induct {n : Nat} {P : Closing → Prop}
    (hstep : ∀ {c meet}, c.Sound n → Missing n c meet → P c → P (c.insertMeet meet)) (left : Nat)
    {c c' : Closing} (h : c.Sound n) (hpos : 0 < c.codes.size) (hP : P c)
    (hr : Closing.rounds n left c = .ok c') : P c' := by
  induction left generalizing c with
  | zero => cases hr
  | succ left ih =>
    have hround : P (c.round n) := h.scan_induct hstep _ hpos hP
    simp only [Closing.rounds] at hr
    split at hr
    · cases hr
      exact hround
    · exact ih (h.round hpos) (Nat.lt_of_lt_of_le hpos (size_le_scan _ _ _ _)) hround hr

theorem Sound.extends_insertMeet {n : Nat} {c : Closing} (h : c.Sound n) {meet : BitSet}
    (hm : Missing n c meet) : c.draft.Extends (c.insertMeet meet).draft :=
  Draft.extends_insertBetween h.linked (insertable h hm) _

end Closing

/-! ## The stages of a hierarchy -/

/-- The closure of a draft begins with its leaf types marked and no type inserted. -/
def Draft.opening (draft : Draft) (order : List Nat) : Closing :=
  Closing.start (draft.markLeaves order) order

namespace Hierarchy

/-- The stages in which a hierarchy comes about: declarations are resolved, the draft is ordered,
it is closed under greatest lower bounds and what results is ordered once more. -/
structure Stages (d : Declarations) (draft : Draft) (order : List Nat) (c : Closing)
    (final : List Nat) : Prop where
  resolved : Draft.ofDeclarations d = .ok draft
  linked : draft.Linked
  names_eq : draft.names = d.names.names
  leaf_size : draft.leaf.size = draft.size
  ordered : draft.Ordered order
  opening : (draft.opening order).Sound (draft.opening order).codes.size
  opening_pos : 0 < (draft.opening order).codes.size
  rounds : Closing.rounds (draft.opening order).codes.size Closing.roundLimit
    (draft.opening order) = .ok c
  sound : c.Sound (draft.opening order).codes.size
  closed : c.Closed
  final : c.draft.Ordered final

theorem exists_stages {d : Declarations} (hd : d.Sound) {h : Hierarchy}
    (hh : ofDeclarations d = .ok h) :
    ∃ draft order c final, Stages d draft order c final ∧ h = ofDraft c.draft final := by
  obtain ⟨draft, order, c, final, hdraft, horder, hrounds, hfinal, rfl⟩ :=
    ofDeclarations_eq_ok_iff.1 hh
  obtain ⟨hlinked, hnames, hleaf⟩ := Draft.linked_of_declarations hd hdraft
  obtain ⟨hopening, hpos⟩ := Closing.start_of_declarations hd hdraft horder
  obtain ⟨hsound, hclosed⟩ := hopening.rounds _ hpos hrounds
  exact ⟨draft, order, c, final, ⟨hdraft, hlinked, hnames, hleaf,
    Draft.ordered_of_ordering hlinked horder, hopening, hpos, hrounds, hsound, hclosed,
    Draft.ordered_of_ordering hsound.linked hfinal⟩, rfl⟩

namespace Stages

variable {d : Declarations} {draft : Draft} {order : List Nat} {c : Closing} {final : List Nat}
  (hs : Stages d draft order c final)
include hs

/-- What holds at the opening and is kept by every insertion holds of the closed draft. -/
theorem induct {P : Closing → Prop} (hopening : P (draft.opening order))
    (hstep : ∀ {c meet}, c.Sound (draft.opening order).codes.size →
      Closing.Missing (draft.opening order).codes.size c meet → P c → P (c.insertMeet meet)) :
    P c :=
  hs.opening.rounds_induct hstep _ hs.opening_pos hopening hs.rounds

/-- The closed draft has the declared types as they were. -/
theorem draft_extends : draft.Extends c.draft :=
  hs.induct (P := fun c => draft.Extends c.draft) (draft.extends_markLeaves order)
    fun h hm hc => hc.trans (h.extends_insertMeet hm)

theorem sequence_ordered : c.draft.Ordered (sequence c.draft final) :=
  ordered_sequence hs.sound.classified hs.final

theorem size_eq : (ofDraft c.draft final).size = (sequence c.draft final).length :=
  size_ofDraft hs.sound.classified hs.final hs.sound.names_nodup

theorem below_iff {i j : Nat} (hi : i < (sequence c.draft final).length)
    (hj : j < (sequence c.draft final).length) : (ofDraft c.draft final).Below j i ↔
      c.draft.Below (sequence c.draft final)[j] (sequence c.draft final)[i] :=
  below_ofDraft hs.sound.linked hs.sound.classified hs.final hi hj

end Stages

/-- The name of a final number is that of the type which got it. -/
theorem name_ofDraft {d : Draft} {order : List Nat} (hc : d.Classified) (ho : d.Ordered order)
    (hnames : d.names.toList.Nodup) {i : Nat} (hi : i < (sequence d order).length) :
    (ofDraft d order).names.name? i = some (d.nameOf (sequence d order)[i]) :=
  (NameTable.name?_ofList (nodup_names_sequence hc ho hnames) i).trans (by simp [hi])

/-- A declared type keeps its place and its name in the closed draft, and it gets a number. -/
theorem Stages.placed {types : List (String × List String)} {d : Declarations} {draft : Draft}
    {order : List Nat} {c : Closing} {final : List Nat} (hs : Stages d draft order c final)
    (hd : Declarations.initial.declareAll types = .ok d) {z : String}
    (hz : Declarations.Declared types z) : ∃ t, d.names.name? t = some z ∧ t < draft.size ∧
      ∃ i, ∃ hi : i < (sequence c.draft final).length, (sequence c.draft final)[i] = t ∧
        (ofDraft c.draft final).names.index? z = some i := by
  obtain ⟨t, ht⟩ := (Declarations.declared_iff hd).1 hz
  have hlt : t < draft.size := by
    rw [Draft.size, hs.names_eq]
    exact (Array.getElem?_eq_some_iff.1 ht).1
  have hmem := hs.sequence_ordered.mem_iff.2 (Nat.lt_of_lt_of_le hlt hs.draft_extends.size_le)
  obtain ⟨i, hi, hit⟩ := List.getElem_of_mem hmem
  refine ⟨t, ht, hlt, i, hi, hit, NameTable.index?_eq_some_iff.2 ?_⟩
  rw [name_ofDraft hs.sound.classified hs.final hs.sound.names_nodup hi, hit,
    hs.draft_extends.nameOf_eq hlt, Draft.nameOf, hs.names_eq]
  exact congrArg some (congrArg (·.getD "") ht)

/-- Declared types are found by name in the hierarchy, and one is below another when the
declarations say so. -/
theorem below_iff_declared {types : List (String × List String)} {d : Declarations}
    {h : Hierarchy} (hd : Declarations.initial.declareAll types = .ok d)
    (hh : ofDeclarations d = .ok h) {x y : String} (hx : Declarations.Declared types x)
    (hy : Declarations.Declared types y) : ∃ i j, h.names.index? x = some i ∧
      h.names.index? y = some j ∧
      (h.Below i j ↔ ReflTransGen (Declarations.NamesParent types) x y) := by
  have hdecl := Declarations.sound_of_declareAll Declarations.sound_initial hd
  obtain ⟨draft, order, c, final, hs, rfl⟩ := exists_stages hdecl hh
  obtain ⟨t, ht, htl, i, hi, hit, hxi⟩ := hs.placed hd hx
  obtain ⟨u, hu, hul, j, hj, hju, hyj⟩ := hs.placed hd hy
  refine ⟨i, j, hxi, hyj, ?_⟩
  rw [hs.below_iff hj hi, hit, hju, hs.draft_extends.below_iff htl hul,
    Draft.below_iff_declared hd hs.resolved ht hu]

end Hierarchy

namespace Lattice

/-- A lattice tells of two declared types just what their declarations say, whatever has been asked
before: the one subsumes the other if it is the same type, or one that the declared parents lead
to. -/
theorem subsumes_iff_declared {types : List (String × List String)} {d : Declarations}
    {l₀ l : Lattice} (hd : Declarations.initial.declareAll types = .ok d)
    (hbuilt : ofDeclarations d = .ok l₀) (hgrown : Grown l₀ l) {x y : String}
    (hx : Declarations.Declared types x) (hy : Declarations.Declared types y) :
    ∃ s t, l.typeId? x = some s ∧ l.typeId? y = some t ∧
      ((l.subsumes s t).1 = true ↔
        x = y ∨ TransGen (Declarations.NamesParent types) y x) := by
  have hl := (sound_of_declarations hd hbuilt).of_grown hgrown
  have hhierarchy : Hierarchy.ofDeclarations d = .ok l.hierarchy := by
    rw [hgrown.hierarchy_eq]
    exact (eq_of_declarations hbuilt).1
  obtain ⟨j, i, hj, hi, hbelow⟩ := Hierarchy.below_iff_declared hd hhierarchy hy hx
  refine ⟨.of i, .of j, by rw [typeId?, hi], by rw [typeId?, hj], ?_⟩
  have hlt : j < l.hierarchy.size :=
    (Array.getElem?_eq_some_iff.1 (NameTable.index?_eq_some_iff.1 hj)).1
  have hle : l.hierarchy.Le (.of j) (.of i) ↔ l.hierarchy.Below j i :=
    ⟨fun h => h.elim (fun h0 => h0 ▸ hl.hierarchy.below_zero hlt) id, .inr⟩
  rw [hl.subsumes_iff, hle, hbelow, reflTransGen_iff_eq_or_transGen]

/-- A type that was put between two declared types and two others, after questions. -/
theorem subsumes_iff_declared_diamond : ∃ (d : Declarations) (l₀ l : Lattice),
    Declarations.initial.declareAll
      [("a", []), ("b", []), ("c", ["a", "b"]), ("d", ["a", "b"])] = .ok d ∧
    ofDeclarations d = .ok l₀ ∧ Grown l₀ l ∧
    Declarations.Declared [("a", []), ("b", []), ("c", ["a", "b"]), ("d", ["a", "b"])] "a" ∧
    Declarations.Declared [("a", []), ("b", []), ("c", ["a", "b"]), ("d", ["a", "b"])] "d" ∧
    ∃ s t, l.typeId? "a" = some s ∧ l.typeId? "d" = some t ∧ ((l.subsumes s t).1 = true ↔
      "a" = "d" ∨ TransGen (Declarations.NamesParent
        [("a", []), ("b", []), ("c", ["a", "b"]), ("d", ["a", "b"])]) "d" "a") := by
  obtain ⟨d, l₀, hd, hl, -⟩ := built_diamond
  have hgrown : Grown l₀ (l₀.unify (.of 1) (.of 2)).2 := .unify _ _ (.refl _)
  exact ⟨d, l₀, _, hd, hl, hgrown, .inr ⟨[], by decide⟩, .inr ⟨["a", "b"], by decide⟩,
    subsumes_iff_declared hd hl hgrown (.inr ⟨[], by decide⟩) (.inr ⟨["a", "b"], by decide⟩)⟩

end Lattice

end FeatureLogic
