import Mathlib.Algebra.Group.Nat.Defs
import FeatureLogic.Proofs.Lattice.Acyclic
import FeatureLogic.Proofs.Lattice.Conservation

/-!
The closure under greatest lower bounds converges. A round goes through the pairs of codes while
codes are added to them, so it does not come to all pairs; but a code that is added too late for a
pair is the common part of two that were not (`Closing.Late`), and that is enough for one round to
close the codes (`Closing.Sound.closed_of_settled`). The second round adds nothing. Declarations
make a lattice, therefore, just when every parent is declared and no type is above itself
(`Lattice.exists_ofDeclarations_iff`).
-/

open Relation

namespace FeatureLogic

namespace Closing

/-! ## What one round settles -/

/-- The code at `m` is the common part of those at `a` and `b`. -/
def IsMeet (c : Closing) (a b m : Nat) : Prop :=
  ∀ x, (c.codeOf m).contains x = true ↔
    (c.codeOf a).contains x = true ∧ (c.codeOf b).contains x = true

/-- If two codes have a common part, it is a code. -/
def HasMeet (c : Closing) (a b : Nat) : Prop :=
  (∃ x, (c.codeOf a).contains x = true ∧ (c.codeOf b).contains x = true) →
    ∃ m < c.codes.size, c.IsMeet a b m

/-- The code at `b` is the common part of two codes between the places `a` and `b`. -/
def Late (c : Closing) (a b : Nat) : Prop :=
  ∃ p q, (a < p ∧ p < b) ∧ (a < q ∧ q < b) ∧ c.IsMeet p q b

/-- What is known of the pairs of places up to `(a, b)` once they are gone through. -/
def Settled (c : Closing) (a b : Nat) : Prop :=
  ∀ x y, x < y → y < c.codes.size → (x < a ∨ x = a ∧ y < b) → c.HasMeet x y ∨ c.Late x y

theorem contains_insertMeet_of_lt (c : Closing) (meet : BitSet) {a : Nat} (ha : a < c.codes.size)
    (x : Nat) : ((c.insertMeet meet).codeOf a).contains x = true ↔
      (c.codeOf a).contains x = true ∨ meet.isSubset (c.codeOf a) = true ∧ x = c.codes.size := by
  rw [contains_insertMeet c meet (Nat.lt_succ_of_lt ha), if_neg (Nat.ne_of_lt ha)]

/-- The new code is the common part of the two that it was missing for. -/
theorem isMeet_insertMeet {c : Closing} {meet : BitSet} {a b : Nat} (ha : a < c.codes.size)
    (hb : b < c.codes.size) (hmeet : ∀ x, meet.contains x = true ↔
      (c.codeOf a).contains x = true ∧ (c.codeOf b).contains x = true) :
    (c.insertMeet meet).IsMeet a b c.codes.size := by
  have hsub : ∀ {u}, (∀ x, meet.contains x = true → (c.codeOf u).contains x = true) →
      meet.isSubset (c.codeOf u) = true := BitSet.isSubset_iff.2
  intro x
  rw [contains_insertMeet c meet (Nat.lt_succ_self _), if_pos rfl,
    contains_insertMeet_of_lt c meet ha, contains_insertMeet_of_lt c meet hb, hmeet x,
    hsub fun x hx => ((hmeet x).1 hx).1, hsub fun x hx => ((hmeet x).1 hx).2]
  tauto

section Insertion

variable {n : Nat} {c : Closing} (h : c.Sound n) {meet : BitSet}
include h

/-- A code takes up the new bit when it contains the meet, so a common part stays one. -/
theorem IsMeet.insertMeet {a b m : Nat} (hi : c.IsMeet a b m) (ha : a < c.codes.size)
    (hb : b < c.codes.size) (hm : m < c.codes.size) : (c.insertMeet meet).IsMeet a b m := by
  have hsub : meet.isSubset (c.codeOf m) = true ↔
      meet.isSubset (c.codeOf a) = true ∧ meet.isSubset (c.codeOf b) = true := by
    simp only [BitSet.isSubset_iff, hi _]
    exact ⟨fun hs => ⟨fun y hy => (hs y hy).1, fun y hy => (hs y hy).2⟩,
      fun hs y hy => ⟨hs.1 y hy, hs.2 y hy⟩⟩
  intro x
  rw [contains_insertMeet_of_lt c meet hm, contains_insertMeet_of_lt c meet ha,
    contains_insertMeet_of_lt c meet hb, hi x, hsub]
  by_cases hx : x = c.codes.size
  · have hold : ∀ u < c.codes.size, ¬ (c.codeOf u).contains x = true := fun u hu hux =>
      Nat.ne_of_lt (h.lt_of_contains hu hux) hx
    have hxa := hold a ha
    have hxb := hold b hb
    tauto
  · simp [hx]

/-- Two codes that have nothing in common get no common bit. -/
theorem HasMeet.insertMeet {a b : Nat} (hi : c.HasMeet a b) (ha : a < c.codes.size)
    (hb : b < c.codes.size) (hne : ∃ x, meet.contains x = true) :
    (c.insertMeet meet).HasMeet a b := by
  rintro ⟨x, hxa, hxb⟩
  rw [contains_insertMeet_of_lt c meet ha] at hxa
  rw [contains_insertMeet_of_lt c meet hb] at hxb
  have hcommon : ∃ x, (c.codeOf a).contains x = true ∧ (c.codeOf b).contains x = true := by
    rcases hxa with hxa | ⟨hsa, rfl⟩ <;> rcases hxb with hxb | ⟨hsb, hx⟩
    · exact ⟨x, hxa, hxb⟩
    · exact absurd hx (Nat.ne_of_lt (h.lt_of_contains ha hxa))
    · exact absurd (h.lt_of_contains hb hxb) (Nat.lt_irrefl _)
    · exact hne.imp fun y hy => ⟨BitSet.isSubset_iff.1 hsa y hy, BitSet.isSubset_iff.1 hsb y hy⟩
  obtain ⟨m, hm, hmeet⟩ := hi hcommon
  refine ⟨m, ?_, hmeet.insertMeet h ha hb hm⟩
  rw [size_insertMeet]
  exact Nat.lt_succ_of_lt hm

theorem Late.insertMeet {a b : Nat} (hl : c.Late a b) (hb : b < c.codes.size) :
    (c.insertMeet meet).Late a b := by
  obtain ⟨p, q, hp, hq, hmeet⟩ := hl
  exact ⟨p, q, hp, hq, hmeet.insertMeet h (Nat.lt_trans hp.2 hb) (Nat.lt_trans hq.2 hb) hb⟩

/-- After the code that was missing for `(a, b)` is added, the pair is settled, and so are the
pairs of the new code with those before `a`, for which it comes too late. -/
theorem Settled.insertMeet {a b : Nat} (hs : c.Settled a b) (hab : a < b) (hb : b < c.codes.size)
    (hne : ∃ x, meet.contains x = true)
    (hmeet : ∀ x, meet.contains x = true ↔
      (c.codeOf a).contains x = true ∧ (c.codeOf b).contains x = true) :
    (c.insertMeet meet).Settled a (b + 1) := by
  have ha : a < c.codes.size := Nat.lt_trans hab hb
  have hnew := isMeet_insertMeet ha hb hmeet
  intro x y hxy hy hbefore
  rw [size_insertMeet] at hy
  rcases Nat.lt_succ_iff_lt_or_eq.1 hy with hy | rfl
  · by_cases hhere : x = a ∧ y = b
    · obtain ⟨rfl, rfl⟩ := hhere
      refine .inl fun _ => ⟨_, ?_, hnew⟩
      rw [size_insertMeet]
      exact Nat.lt_succ_self _
    · have hx : x < c.codes.size := Nat.lt_trans hxy hy
      refine (hs x y hxy hy (by omega)).imp ?_ ?_
      · exact fun hold => hold.insertMeet h hx hy hne
      · exact fun hold => hold.insertMeet h hy
  · exact .inr ⟨a, b, ⟨by omega, ha⟩, ⟨by omega, hb⟩, hnew⟩

end Insertion

theorem eq_inter_of_missingMeet {c : Closing} {a b : Nat} {meet : BitSet}
    (hm : c.missingMeet a b = some meet) : meet = (c.codeOf a).inter (c.codeOf b) := by
  simp only [missingMeet] at hm
  split at hm
  · cases hm
  split at hm
  · cases hm
  · exact (Option.some.inj hm).symm

/-- A scan settles all pairs from where it starts. -/
theorem Sound.settled_scan {n : Nat} (fuel : Nat) {a b : Nat} {c : Closing} (h : c.Sound n)
    (ha : a < c.codes.size) (hab : a < b) (hs : c.Settled a b)
    (hfuel : remaining (2 ^ n) a b ≤ fuel) :
    ∀ x y, x < y → y < (Closing.scan fuel a b c).codes.size →
      (Closing.scan fuel a b c).HasMeet x y ∨ (Closing.scan fuel a b c).Late x y := by
  have hle : c.codes.size ≤ 2 ^ n := h.size_le
  induction fuel generalizing a b c with
  | zero =>
    have : 0 < (2 ^ n - a) * (2 ^ n + 1) := Nat.mul_pos (by omega) (Nat.succ_pos _)
    unfold remaining at hfuel
    omega
  | succ fuel ih =>
    have hnext : b < 2 ^ n → remaining (2 ^ n) a (b + 1) ≤ fuel := by
      intro hb
      unfold remaining at hfuel ⊢
      omega
    unfold Closing.scan
    split
    · rename_i hb
      cases hm : c.missingMeet a b with
      | some meet =>
        -- the meet of the pair is new, and pairs with it are late
        have hmissing := missing_of_missingMeet h ha hb hm
        have hsound := h.insertMeet hmissing
        refine ih hsound ?_ (Nat.lt_succ_of_lt hab) ?_ (hnext (by omega)) hsound.size_le
        · rw [size_insertMeet]
          exact Nat.lt_succ_of_lt ha
        · refine hs.insertMeet h hab hb hmissing.nonempty fun x => ?_
          rw [eq_inter_of_missingMeet hm, BitSet.contains_inter, Bool.and_eq_true]
      | none =>
        refine ih h ha (Nat.lt_succ_of_lt hab) (fun x y hxy hy hbefore => ?_) (hnext (by omega)) hle
        -- the pair has a meet already
        by_cases hhere : x = a ∧ y = b
        · obtain ⟨rfl, rfl⟩ := hhere
          exact .inl (h.meet_of_missingMeet_eq_none ha hb hm)
        · exact hs x y hxy hy (by omega)
    · rename_i hb
      split
      · rename_i ha'
        refine ih h ha' (Nat.lt_succ_self _) (fun x y hxy hy hbefore => ?_) ?_ hle
        · exact hs x y hxy hy (by omega)
        · unfold remaining at hfuel ⊢
          have : 2 ^ n - a = (2 ^ n - (a + 1)) + 1 := by omega
          rw [this, Nat.add_mul] at hfuel
          omega
      · rename_i ha'
        exact fun x y hxy hy => hs x y hxy hy (by omega)

/-! ## One round closes the codes -/

/-- A least code that contains a common part is contained in every later code that does. -/
theorem Sound.contains_of_settled {n : Nat} {c : Closing} (h : c.Sound n)
    (hs : ∀ x y, x < y → y < c.codes.size → c.HasMeet x y ∨ c.Late x y) {part : BitSet}
    (hne : ∃ x, part.contains x = true) {x : Nat} (hx : x ∈ c.leastAbove part) {y : Nat}
    (hxy : x < y) (hy : y < c.codes.size) (hsub : part.isSubset (c.codeOf y) = true) :
    (c.codeOf y).contains x = true := by
  obtain ⟨⟨hxl, hxsub⟩, hleast⟩ := (mem_leastAbove h).1 hx
  rw [BitSet.isSubset_iff] at hxsub hsub
  induction y using Nat.strongRecOn with
  | _ y ih =>
    rcases hs x y hxy hy with hmeet | ⟨p, q, ⟨hxp, hpy⟩, ⟨hxq, hqy⟩, hmeet⟩
    · -- the common part of the two contains the part, so by leastness it is the code at `x`
      obtain ⟨m, hm, hmeet⟩ := hmeet (hne.imp fun s hs => ⟨hxsub s hs, hsub s hs⟩)
      have hmx : m = x := by
        by_contra hmx
        refine hleast m hm (BitSet.isSubset_iff.2 fun s hs => ?_) hmx ?_
        · exact (hmeet s).2 ⟨hxsub s hs, hsub s hs⟩
        · exact ((hmeet m).1 (h.contains_self hm)).1
      subst hmx
      exact ((hmeet m).1 (h.contains_self hm)).2
    · refine (hmeet x).2 ⟨ih p hpy hxp (by omega) fun s hs => ?_,
        ih q hqy hxq (by omega) fun s hs => ?_⟩
      · exact ((hmeet s).1 (hsub s hs)).1
      · exact ((hmeet s).1 (hsub s hs)).2

theorem Sound.closed_of_settled {n : Nat} {c : Closing} (h : c.Sound n)
    (hs : ∀ x y, x < y → y < c.codes.size → c.HasMeet x y ∨ c.Late x y) : c.Closed := by
  intro a b ha hb ⟨s, hsa, hsb⟩
  have hpart : ∀ x, ((c.codeOf a).inter (c.codeOf b)).contains x = true ↔
      (c.codeOf a).contains x = true ∧ (c.codeOf b).contains x = true := by
    intro x
    rw [BitSet.contains_inter, Bool.and_eq_true]
  have hne : ∃ x, ((c.codeOf a).inter (c.codeOf b)).contains x = true :=
    ⟨s, (hpart s).2 ⟨hsa, hsb⟩⟩
  -- below each of the two is a least code that contains the common part
  obtain ⟨x, hx, hxa⟩ :=
    exists_leastAbove h ha (BitSet.isSubset_iff.2 fun y hy => ((hpart y).1 hy).1)
  obtain ⟨y, hy, hyb⟩ :=
    exists_leastAbove h hb (BitSet.isSubset_iff.2 fun y hy => ((hpart y).1 hy).2)
  obtain ⟨⟨hxl, hxsub⟩, hxleast⟩ := (mem_leastAbove h).1 hx
  obtain ⟨⟨hyl, hysub⟩, hyleast⟩ := (mem_leastAbove h).1 hy
  have heq : x = y := by
    rcases Nat.lt_trichotomy x y with hlt | heq | hgt
    · exact absurd (h.contains_of_settled hs hne hx hlt hyl hysub)
        (hyleast x hxl hxsub (Nat.ne_of_lt hlt))
    · exact heq
    · exact absurd (h.contains_of_settled hs hne hy hgt hxl hxsub)
        (hxleast y hyl hysub (Nat.ne_of_lt hgt))
  subst heq
  refine ⟨x, hxl, fun z => ⟨fun hz => ?_, fun hz => ?_⟩⟩
  · exact ⟨h.contains_trans ha hxa hz, h.contains_trans hb hyb hz⟩
  · exact BitSet.isSubset_iff.1 hxsub z ((hpart z).2 hz)

theorem Sound.closed_round {n : Nat} {c : Closing} (h : c.Sound n) (hpos : 0 < c.codes.size) :
    (c.round n).Closed := by
  refine (h.round hpos).closed_of_settled (h.settled_scan _ hpos Nat.one_pos ?_ ?_)
  · exact fun x y hxy _ hbefore => by omega
  · have hpow : 1 ≤ 2 ^ n := Nat.one_le_two_pow
    have hsq : 2 ^ n * 2 ^ n = 4 ^ n := by rw [← Nat.mul_pow]
    have hlin : 2 ^ n ≤ 2 ^ n * 2 ^ n := Nat.le_mul_of_pos_left _ hpow
    have : Nat.pow 4 (n + 1) = 4 ^ n * 4 := rfl
    unfold remaining
    rw [this, Nat.sub_zero, Nat.mul_add, Nat.mul_one]
    omega

/-! ## The second round adds nothing -/

theorem Closed.missingMeet_eq_none {n : Nat} {c : Closing} (h : c.Sound n) (hc : c.Closed)
    {a b : Nat} (ha : a < c.codes.size) (hb : b < c.codes.size) : c.missingMeet a b = none := by
  by_contra hsome
  obtain ⟨meet, hm⟩ := Option.ne_none_iff_exists'.1 hsome
  have hmissing := missing_of_missingMeet h ha hb hm
  have hinter : ∀ x, meet.contains x = true ↔
      (c.codeOf a).contains x = true ∧ (c.codeOf b).contains x = true := by
    intro x
    rw [eq_inter_of_missingMeet hm, BitSet.contains_inter, Bool.and_eq_true]
  obtain ⟨m, hml, hmeet⟩ := hc a b ha hb (hmissing.nonempty.imp fun x => (hinter x).1)
  exact hmissing.new m hml fun x => (hinter x).trans (hmeet x).symm

theorem Closed.scan_eq {n : Nat} {c : Closing} (h : c.Sound n) (hc : c.Closed) (fuel : Nat)
    {a b : Nat} (ha : a < c.codes.size) : Closing.scan fuel a b c = c := by
  induction fuel generalizing a b with
  | zero => rfl
  | succ fuel ih =>
    unfold Closing.scan
    split
    · rename_i hb
      rw [hc.missingMeet_eq_none h ha hb]
      exact ih ha
    · split
      · rename_i hnext
        exact ih hnext
      · rfl

/-- A closure stops after one round or two, with what the first has made. -/
theorem Sound.rounds_eq {n : Nat} {c : Closing} (h : c.Sound n) (hpos : 0 < c.codes.size)
    (left : Nat) : Closing.rounds n (left + 2) c = .ok (c.round n) := by
  have hquiet : (c.round n).round n = c.round n :=
    (h.closed_round hpos).scan_eq (h.round hpos) _
      (Nat.lt_of_lt_of_le hpos (size_le_scan _ _ _ _))
  rw [Closing.rounds]
  split
  · rfl
  · rw [Closing.rounds, hquiet, if_pos rfl]

/-! ## The closed draft -/

theorem not_mem_parentsOf_insertMeet {n : Nat} {c : Closing} (h : c.Sound n) {meet : BitSet}
    (hm : Missing n c meet) (hirrefl : ∀ t, t ∉ c.draft.parentsOf t) (t : Nat) :
    t ∉ (c.insertMeet meet).draft.parentsOf t := by
  have hi := insertable h hm
  intro htt
  rcases (Draft.mem_parentsOf_insertBetween h.linked hi).1 htt with ⟨ht, hp⟩ | ⟨hc, ht⟩ | ⟨hp, -⟩
  · exact Nat.ne_of_lt (hi.parent_lt t hp) ht
  · exact Nat.ne_of_lt (hi.child_lt t hc) ht
  · exact hirrefl t hp

end Closing

/-- Once the draft of declarations has an order, the closure ends and the closed draft has an order
again. -/
theorem Draft.exists_close {d : Declarations} (hd : d.Sound) {draft : Draft} {order : List Nat}
    (hdraft : ofDeclarations d = .ok draft) (horder : draft.ordering = .ok order) :
    ∃ closed final, (draft.markLeaves order).close order = .ok closed ∧
      closed.ordering = .ok final := by
  obtain ⟨hstart, hpos⟩ := Closing.start_of_declarations hd hdraft horder
  have hrounds := hstart.rounds_eq hpos (Closing.roundLimit - 2)
  have hsound := hstart.round hpos
  have ho := ordered_of_ordering (linked_of_declarations hd hdraft).1 horder
  have hirrefl := hstart.rounds_induct (P := fun c => ∀ t, t ∉ c.draft.parentsOf t)
    (fun h hm hc => Closing.not_mem_parentsOf_insertMeet h hm hc) _ hpos
    (Draft.ordered_markLeaves ho).irrefl hrounds
  obtain ⟨final, hfinal⟩ := (exists_ordering_iff hsound.linked).2
    (acyclic_of_antisymm hsound.linked hirrefl hsound.antisymm)
  exact ⟨_, final, congrArg (Except.map Closing.draft) hrounds, hfinal⟩

/-! ## Which declarations make a lattice -/

namespace Hierarchy

theorem exists_hierarchy_iff {d : Declarations} (hd : d.Sound) :
    (∃ h, ofDeclarations d = .ok h) ↔
      ∃ draft, Draft.ofDeclarations d = .ok draft ∧ draft.Acyclic := by
  constructor
  · rintro ⟨h, hh⟩
    obtain ⟨draft, order, -, -, hdraft, horder, -⟩ := ofDeclarations_eq_ok_iff.1 hh
    have hlinked := (Draft.linked_of_declarations hd hdraft).1
    exact ⟨draft, hdraft, (Draft.exists_ordering_iff hlinked).1 ⟨order, horder⟩⟩
  · rintro ⟨draft, hdraft, hacyclic⟩
    have hlinked := (Draft.linked_of_declarations hd hdraft).1
    obtain ⟨order, horder⟩ := (Draft.exists_ordering_iff hlinked).2 hacyclic
    obtain ⟨closed, final, hclosed, hfinal⟩ := Draft.exists_close hd hdraft horder
    refine ⟨ofDraft closed final, ?_⟩
    simp only [ofDeclarations, hdraft, horder, bind, Except.bind, hclosed, hfinal, pure,
      Except.pure]

/-- A parent that is not declared or a circle is all that keeps declarations from making a
hierarchy. -/
theorem error_of_declarations {d : Declarations} (hd : d.Sound) {e : LatticeError}
    (he : ofDeclarations d = .error e) :
    (∃ type parent, e = .unknownParent type parent) ∨ ∃ name, e = .cyclicHierarchy name := by
  rw [ofDeclarations] at he
  cases hdraft : Draft.ofDeclarations d with
  | error e' =>
    simp only [hdraft, bind, Except.bind, Except.error.injEq] at he
    exact .inl (he ▸ Draft.ofDeclarations_error hdraft)
  | ok draft =>
    cases horder : draft.ordering with
    | error e' =>
      simp only [hdraft, horder, bind, Except.bind, Except.error.injEq] at he
      rw [Draft.ordering] at horder
      split at horder
      · cases horder
      · exact .inr ⟨_, he ▸ (Except.error.inj horder).symm⟩
    | ok order =>
      obtain ⟨closed, final, hclosed, hfinal⟩ := Draft.exists_close hd hdraft horder
      simp [hdraft, horder, hclosed, hfinal, bind, Except.bind, pure, Except.pure] at he

end Hierarchy

namespace Lattice

/-- Declarations make a lattice just when every parent that they name is declared and no type leads
to itself. The closure always ends, and the closed draft always has an order. -/
theorem exists_ofDeclarations_iff {types : List (String × List String)} {d : Declarations}
    (hd : Declarations.initial.declareAll types = .ok d) :
    ((∃ l, ofDeclarations d = .ok l) ↔
      (∀ child parent, Declarations.NamesParent types child parent →
        Declarations.Declared types parent) ∧
      ∀ name, ¬ TransGen (Declarations.NamesParent types) name name) ∧
    (∀ rounds, ofDeclarations d ≠ .error (.closureDiverged rounds)) ∧
    ∀ draft order, Draft.ofDeclarations d = .ok draft → draft.ordering = .ok order →
      ∃ closed final, (draft.markLeaves order).close order = .ok closed ∧
        closed.ordering = .ok final := by
  have hsound := Declarations.sound_of_declareAll Declarations.sound_initial hd
  refine ⟨?_, fun rounds he => ?_, fun draft order => Draft.exists_close hsound⟩
  · have hlattice : (∃ l, ofDeclarations d = .ok l) ↔ ∃ h, Hierarchy.ofDeclarations d = .ok h := by
      rw [ofDeclarations]
      cases Hierarchy.ofDeclarations d <;> simp [Except.map]
    rw [hlattice, Hierarchy.exists_hierarchy_iff hsound,
      ← Draft.exists_draft_iff hd]
    constructor
    · rintro ⟨draft, hdraft, hacyclic⟩
      exact ⟨⟨draft, hdraft⟩, (Draft.acyclic_iff_declared hd hdraft).1 hacyclic⟩
    · rintro ⟨⟨draft, hdraft⟩, hacyclic⟩
      exact ⟨draft, hdraft, (Draft.acyclic_iff_declared hd hdraft).2 hacyclic⟩
  · rw [ofDeclarations] at he
    cases hh : Hierarchy.ofDeclarations d with
    | ok h => simp [hh, Except.map] at he
    | error e =>
      simp only [hh, Except.map, Except.error.injEq] at he
      rcases Hierarchy.error_of_declarations hsound hh with ⟨type, parent, rfl⟩ | ⟨name, rfl⟩ <;>
        cases he

/-- Two types that name each other for a parent. -/
def circle : List (String × List String) := [("a", ["b"]), ("b", ["a"])]

/-- Two types with two common subtypes. -/
def diamond : List (String × List String) :=
  [("a", []), ("b", []), ("c", ["a", "b"]), ("d", ["a", "b"])]

/-- The circle makes no lattice. The diamond makes one, in which the closure has put a sixth type
below the two that have common subtypes. -/
theorem exists_ofDeclarations_iff_circle_diamond :
    (∀ types ∈ [circle, diamond], ∃ d : Declarations,
      Declarations.initial.declareAll types = .ok d ∧
      ((∃ l, ofDeclarations d = .ok l) ↔
        (∀ child parent, Declarations.NamesParent types child parent →
          Declarations.Declared types parent) ∧
        ∀ name, ¬ TransGen (Declarations.NamesParent types) name name) ∧
      (∀ rounds, ofDeclarations d ≠ .error (.closureDiverged rounds)) ∧
      ∀ draft order, Draft.ofDeclarations d = .ok draft → draft.ordering = .ok order →
        ∃ closed final, (draft.markLeaves order).close order = .ok closed ∧
          closed.ordering = .ok final) ∧
    (∃ d, Declarations.initial.declareAll circle = .ok d ∧ ¬ ∃ l, ofDeclarations d = .ok l) ∧
    ∃ d l, Declarations.initial.declareAll diamond = .ok d ∧ d.size = 5 ∧
      ofDeclarations d = .ok l ∧ l.typeCount = 6 := by
  have hcircle : (Declarations.initial.declareAll circle).toOption.map
      (fun d => (ofDeclarations d).toOption.map typeCount) = some none := by decide +kernel
  have hdiamond : (Declarations.initial.declareAll diamond).toOption.map
      (fun d => (d.size, (ofDeclarations d).toOption.map typeCount)) = some (5, some 6) := by
    decide +kernel
  obtain ⟨d, hd, hnone⟩ := Option.map_eq_some_iff.1 hcircle
  obtain ⟨d', hd', hsome⟩ := Option.map_eq_some_iff.1 hdiamond
  simp only [Prod.mk.injEq, Option.map_eq_some_iff] at hsome
  obtain ⟨hsize, l, hl, hcount⟩ := hsome
  replace hd := eq_ok_of_toOption hd
  replace hd' := eq_ok_of_toOption hd'
  refine ⟨fun types htypes => ?_, ⟨d, hd, fun ⟨l, hl⟩ => ?_⟩, d', l, hd', hsize,
    eq_ok_of_toOption hl, hcount⟩
  · simp only [List.mem_cons, List.not_mem_nil, or_false] at htypes
    rcases htypes with rfl | rfl
    · exact ⟨d, hd, exists_ofDeclarations_iff hd⟩
    · exact ⟨d', hd', exists_ofDeclarations_iff hd'⟩
  · rw [hl] at hnone
    cases hnone

end Lattice

end FeatureLogic
