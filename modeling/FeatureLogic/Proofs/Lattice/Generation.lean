import Mathlib.Data.Finset.Basic
import Mathlib.Data.Set.Function
import Mathlib.Data.Set.Lattice
import FeatureLogic.Proofs.Lattice.Representation

/-!
No more types than needed. Every code of a closure is, of the declared types, an intersection of
codes of declared types (`Closing.Generated`), and of a closed one every such intersection that is
not empty is a code. So the coded types of a built lattice are one for each of these
intersections (`Lattice.bijOn_declaredBelow`).
-/

open Relation

namespace FeatureLogic

namespace Declarations

/-- The declared types that are no leaf types and are below a type. -/
def descendants (types : List (String × List String)) (name : String) : Set String :=
  {below | Proper types below ∧ ReflTransGen (NamesParent types) below name}

/-- The sets that are not empty and are what some declared types, one or more, all have below
them. -/
def Intersections (types : List (String × List String)) : Set (Set String) :=
  {set | set.Nonempty ∧ ∃ names : Set String, names.Nonempty ∧ (∀ name ∈ names, Proper types name) ∧
    set = ⋂ name ∈ names, descendants types name}

end Declarations

namespace Closing

/-! ## Codes of the closure -/

/-- Codes come about from those of the first `n` bits, which are the bits of the first types, by
intersection. -/
structure Generated (size n : Nat) (c : Closing) : Prop where
  size_le : size ≤ c.draft.size
  base_iff : ∀ {a}, a < c.codes.size → (a < n ↔ c.typeAt a < size)
  nonempty : ∀ {a}, a < c.codes.size → ∃ x < n, (c.codeOf a).contains x = true
  generated : ∀ {a}, a < c.codes.size → ∃ base : Set Nat, base.Nonempty ∧ (∀ b ∈ base, b < n) ∧
    ∀ x < n, (c.codeOf a).contains x = true ↔ ∀ b ∈ base, (c.codeOf b).contains x = true

theorem generated_of_base {n : Nat} {c : Closing} (h : c.Sound n) (hn : c.codes.size = n) :
    c.Generated c.draft.size n where
  size_le := Nat.le_refl _
  base_iff ha := iff_of_true (hn ▸ ha) (h.typeAt_lt ha)
  nonempty ha := ⟨_, hn ▸ ha, h.contains_self ha⟩
  generated {a} ha := ⟨{a}, Set.singleton_nonempty a, fun _ hb => hn ▸ hb ▸ ha, fun x _ => by simp⟩

/-- An insertion leaves the part of the first bits as it is in every code. -/
theorem contains_insertMeet_base {n : Nat} {c : Closing} (h : c.Sound n) (meet : BitSet)
    {a x : Nat} (ha : a < c.codes.size) (hx : x < n) :
    ((c.insertMeet meet).codeOf a).contains x = true ↔ (c.codeOf a).contains x = true := by
  have hxl : x ≠ c.codes.size := by
    have := h.base_le
    omega
  rw [contains_insertMeet c meet (by omega), if_neg (Nat.ne_of_lt ha)]
  simp [hxl]

theorem Generated.insertMeet {size n : Nat} {c : Closing} (hc : c.Generated size n)
    (h : c.Sound n) {meet : BitSet} (hm : Missing n c meet) :
    (c.insertMeet meet).Generated size n := by
  have hle := h.base_le
  -- the new code, of the first bits, is the meet
  have hnew : ∀ x < n, ((c.insertMeet meet).codeOf c.codes.size).contains x = true ↔
      meet.contains x = true := by
    intro x hx
    rw [contains_insertMeet c meet (Nat.lt_succ_self _), if_pos rfl]
    have : x ≠ c.codes.size := by omega
    simp [this]
  have hbase : ∀ {base : Set Nat} {x}, (∀ b ∈ base, b < n) → x < n →
      ((∀ b ∈ base, ((c.insertMeet meet).codeOf b).contains x = true) ↔
        ∀ b ∈ base, (c.codeOf b).contains x = true) := fun hbase hx =>
    forall₂_congr fun b hb =>
      contains_insertMeet_base h meet (Nat.lt_of_lt_of_le (hbase b hb) hle) hx
  constructor
  · exact Nat.le_trans hc.size_le ((h.extends_insertMeet hm).size_le)
  · intro a ha
    rw [size_insertMeet] at ha
    rw [typeAt_insertMeet c meet h.bits_size]
    rcases Nat.lt_succ_iff_lt_or_eq.1 ha with ha | rfl
    · rw [if_neg (Nat.ne_of_lt ha)]
      exact hc.base_iff ha
    · rw [if_pos rfl]
      exact iff_of_false (by omega) (Nat.not_lt.2 hc.size_le)
  · intro a ha
    rw [size_insertMeet] at ha
    rcases Nat.lt_succ_iff_lt_or_eq.1 ha with ha | rfl
    · obtain ⟨x, hx, hxa⟩ := hc.nonempty ha
      exact ⟨x, hx, (contains_insertMeet_base h meet ha hx).2 hxa⟩
    · obtain ⟨y, hy⟩ := hm.nonempty
      obtain ⟨x, hx, hxy⟩ := hc.nonempty (hm.lt_size hy)
      exact ⟨x, hx, (hnew x hx).2 (hm.down hy hxy)⟩
  · intro a ha
    rw [size_insertMeet] at ha
    rcases Nat.lt_succ_iff_lt_or_eq.1 ha with ha | rfl
    · obtain ⟨base, hne, hlt, hbits⟩ := hc.generated ha
      refine ⟨base, hne, hlt, fun x hx => ?_⟩
      rw [contains_insertMeet_base h meet ha hx, hbits x hx, hbase hlt hx]
    · obtain ⟨u, v, hu, hv, hmeet⟩ := hm.common
      -- what two intersections have in common is the intersection of all that made them
      obtain ⟨base, ⟨b, hb⟩, hlt, hbits⟩ := hc.generated hu
      obtain ⟨base', -, hlt', hbits'⟩ := hc.generated hv
      refine ⟨base ∪ base', ⟨b, .inl hb⟩, fun b hb => hb.elim (hlt b) (hlt' b), fun x hx => ?_⟩
      rw [hnew x hx, hmeet, hbits x hx, hbits' x hx, hbase (fun b hb => hb.elim (hlt b) (hlt' b)) hx]
      simp only [Set.mem_union, or_imp, forall_and]

/-- A closed family of codes has a code for every common part of one or more of them. -/
theorem Closed.exists_inter {c : Closing} (hc : c.Closed) {bits : Finset Nat} (hne : bits.Nonempty)
    (hlt : ∀ b ∈ bits, b < c.codes.size)
    (hx : ∃ x, ∀ b ∈ bits, (c.codeOf b).contains x = true) :
    ∃ m < c.codes.size, ∀ x, (c.codeOf m).contains x = true ↔
      ∀ b ∈ bits, (c.codeOf b).contains x = true := by
  induction hne using Finset.Nonempty.cons_induction with
  | singleton b => exact ⟨b, hlt b (Finset.mem_singleton_self b), fun x => by simp⟩
  | cons b rest _ _ ih =>
    obtain ⟨x, hx⟩ := hx
    simp only [Finset.mem_cons, forall_eq_or_imp] at hx hlt
    obtain ⟨m, hm, hmeet⟩ := ih hlt.2 ⟨x, hx.2⟩
    obtain ⟨k, hk, hkmeet⟩ := hc b m hlt.1 hm ⟨x, hx.1, (hmeet x).2 hx.2⟩
    refine ⟨k, hk, fun y => ?_⟩
    rw [hkmeet, hmeet]
    simp only [Finset.mem_cons, forall_eq_or_imp]

/-- The names that a code stands for, of the first `n` bits. -/
def namesIn (n : Nat) (names : NameTable) (c : Closing) (a : Nat) : Set String :=
  {name | ∃ x < n, (c.codeOf a).contains x = true ∧ names.name? (c.typeAt x) = some name}

section Names

variable {n : Nat} {c : Closing} (h : c.Sound n) {names : NameTable}
include h

/-- No two bits have the same name. -/
theorem mem_namesIn_iff {a x : Nat} {name : String} (hx : x < n)
    (hname : names.name? (c.typeAt x) = some name) :
    name ∈ c.namesIn n names a ↔ (c.codeOf a).contains x = true := by
  refine ⟨?_, fun hxa => ⟨x, hx, hxa, hname⟩⟩
  rintro ⟨y, hy, hya, hother⟩
  rw [← NameTable.index?_eq_some_iff] at hname hother
  have hle := h.base_le
  rwa [h.typeAt_inj (Nat.lt_of_lt_of_le hx hle) (Nat.lt_of_lt_of_le hy hle)
    (Option.some.inj (hname.symm.trans hother))]

/-- Codes that stand for the same names are those of the same type. -/
theorem eq_of_namesIn_eq (hnamed : ∀ x < n, ∃ name, names.name? (c.typeAt x) = some name)
    {a b : Nat} (ha : a < c.codes.size) (hb : b < c.codes.size)
    (heq : c.namesIn n names a = c.namesIn n names b) : a = b := by
  have hbits : ∀ x < n, ((c.codeOf a).contains x = true ↔ (c.codeOf b).contains x = true) := by
    intro x hx
    obtain ⟨name, hname⟩ := hnamed x hx
    rw [← mem_namesIn_iff h hx hname, heq, mem_namesIn_iff h hx hname]
  exact h.contains_antisymm ha hb (h.contains_of_base ha hb fun x hx => (hbits x hx).1)
    (h.contains_of_base hb ha fun x hx => (hbits x hx).2)

end Names

end Closing

namespace Hierarchy.Stages

/-! ## Names of declared types -/

variable {types : List (String × List String)} {d : Declarations} {draft : Draft}
  {order : List Nat} {c : Closing} {final : List Nat} (hs : Stages d draft order c final)
include hs

theorem generated : c.Generated draft.size (draft.opening order).codes.size := by
  have hsize : (draft.opening order).draft.size = draft.size :=
    congrArg Array.size (draft.markLeaves_same order).1
  exact hs.induct (hsize ▸ Closing.generated_of_base hs.opening rfl)
    fun h hm hc => hc.insertMeet h hm

theorem base_lt {x : Nat} (hx : x < (draft.opening order).codes.size) : x < c.codes.size :=
  Nat.lt_of_lt_of_le hx hs.sound.base_le

theorem exists_name_base {x : Nat} (hx : x < (draft.opening order).codes.size) :
    ∃ name, d.names.name? (c.typeAt x) = some name := by
  have hlt := (hs.generated.base_iff (hs.base_lt hx)).1 hx
  rw [Draft.size, hs.names_eq] at hlt
  exact ⟨_, Array.getElem?_eq_getElem hlt⟩

variable (hd : Declarations.initial.declareAll types = .ok d)
include hd

/-- The first bits are those of the declared types that are no leaf types. -/
theorem proper_iff {name : String} : Declarations.Proper types name ↔
    ∃ x < (draft.opening order).codes.size, d.names.name? (c.typeAt x) = some name := by
  constructor
  · rintro ⟨hdeclared, hleaf⟩
    obtain ⟨t, ht, htl, -⟩ := hs.placed hd hdeclared
    rw [← hs.isLeaf_iff_declared hd ht, Bool.not_eq_true] at hleaf
    obtain ⟨x, hx, rfl⟩ := hs.sound.exists_typeAt
      (Nat.lt_of_lt_of_le htl hs.draft_extends.size_le) hleaf
    exact ⟨x, (hs.generated.base_iff hx).2 htl, ht⟩
  · rintro ⟨x, hx, hname⟩
    refine ⟨(Declarations.declared_iff hd).2 ⟨_, hname⟩, ?_⟩
    rw [← hs.isLeaf_iff_declared hd hname, Closing.isLeaf_typeAt hs.sound (hs.base_lt hx)]
    exact Bool.false_ne_true

/-- What is declared below a type is what the code of its bit stands for. -/
theorem descendants_eq {b : Nat} {name : String} (hb : b < (draft.opening order).codes.size)
    (hname : d.names.name? (c.typeAt b) = some name) :
    Declarations.descendants types name =
      c.namesIn (draft.opening order).codes.size d.names b := by
  have hcode : ∀ {x below}, x < (draft.opening order).codes.size →
      d.names.name? (c.typeAt x) = some below →
      (ReflTransGen (Declarations.NamesParent types) below name ↔
        (c.codeOf b).contains x = true) := by
    intro x below hx hbelow
    have hxl := (hs.generated.base_iff (hs.base_lt hx)).1 hx
    have hbl := (hs.generated.base_iff (hs.base_lt hb)).1 hb
    rw [hs.sound.contains_iff (hs.base_lt hb), and_iff_right (hs.base_lt hx),
      hs.draft_extends.below_iff hxl hbl, Draft.below_iff_declared hd hs.resolved hbelow hname]
  ext below
  constructor
  · rintro ⟨hproper, hway⟩
    obtain ⟨x, hx, hbelow⟩ := (hs.proper_iff hd).1 hproper
    exact ⟨x, hx, (hcode hx hbelow).1 hway, hbelow⟩
  · rintro ⟨x, hx, hxb, hbelow⟩
    exact ⟨(hs.proper_iff hd).2 ⟨x, hx, hbelow⟩, (hcode hx hbelow).2 hxb⟩

/-- What a code stands for is an intersection of what is declared below types. -/
theorem namesIn_mem_intersections {a : Nat} (ha : a < c.codes.size) :
    c.namesIn (draft.opening order).codes.size d.names a ∈ Declarations.Intersections types := by
  obtain ⟨x, hx, hxa⟩ := hs.generated.nonempty ha
  obtain ⟨base, ⟨b, hb⟩, hlt, hbits⟩ := hs.generated.generated ha
  obtain ⟨name, hname⟩ := hs.exists_name_base hx
  obtain ⟨upper, hupper⟩ := hs.exists_name_base (hlt b hb)
  refine ⟨⟨name, x, hx, hxa, hname⟩, {upper | ∃ b ∈ base, d.names.name? (c.typeAt b) = some upper},
    ⟨upper, b, hb, hupper⟩, ?_, ?_⟩
  · rintro other ⟨k, hk, hother⟩
    exact (hs.proper_iff hd).2 ⟨k, hlt k hk, hother⟩
  · ext below
    simp only [Set.mem_iInter]
    constructor
    · rintro ⟨y, hy, hya, hbelow⟩ other ⟨k, hk, hother⟩
      rw [hs.descendants_eq hd (hlt k hk) hother, Closing.mem_namesIn_iff hs.sound hy hbelow]
      exact (hbits y hy).1 hya k hk
    · intro hall
      obtain ⟨y, hy, hbelow⟩ := (hs.proper_iff hd).1 (hall upper ⟨b, hb, hupper⟩).1
      refine ⟨y, hy, (hbits y hy).2 fun k hk => ?_, hbelow⟩
      obtain ⟨other, hother⟩ := hs.exists_name_base (hlt k hk)
      have hmem := hall other ⟨k, hk, hother⟩
      rwa [hs.descendants_eq hd (hlt k hk) hother,
        Closing.mem_namesIn_iff hs.sound hy hbelow] at hmem

/-- Every such intersection is what a code stands for. -/
theorem exists_namesIn_eq {set : Set String} (hset : set ∈ Declarations.Intersections types) :
    ∃ a < c.codes.size, c.namesIn (draft.opening order).codes.size d.names a = set := by
  classical
  obtain ⟨⟨name, hmem⟩, names, ⟨upper, hupper⟩, hproper, rfl⟩ := hset
  simp only [Set.mem_iInter] at hmem
  obtain ⟨x, hx, hname⟩ := (hs.proper_iff hd).1 (hmem upper hupper).1
  obtain ⟨b, hb, hbname⟩ := (hs.proper_iff hd).1 (hproper upper hupper)
  have hbits : ∀ {k}, k ∈ (Finset.range (draft.opening order).codes.size).filter
      (fun k => ∃ other ∈ names, d.names.name? (c.typeAt k) = some other) ↔
      k < (draft.opening order).codes.size ∧
        ∃ other ∈ names, d.names.name? (c.typeAt k) = some other := by
    intro k
    rw [Finset.mem_filter, Finset.mem_range]
  -- the closed codes hold the intersection of the codes of these types
  obtain ⟨m, hm, hmeet⟩ := hs.closed.exists_inter ⟨b, hbits.2 ⟨hb, upper, hupper, hbname⟩⟩
    (fun k hk => hs.base_lt (hbits.1 hk).1) ⟨x, fun k hk => by
      obtain ⟨hkl, other, hother, hkname⟩ := hbits.1 hk
      have := hmem other hother
      rwa [hs.descendants_eq hd hkl hkname, Closing.mem_namesIn_iff hs.sound hx hname] at this⟩
  refine ⟨m, hm, ?_⟩
  ext below
  simp only [Set.mem_iInter]
  constructor
  · rintro ⟨y, hy, hym, hbelow⟩ other hother
    obtain ⟨k, hk, hkname⟩ := (hs.proper_iff hd).1 (hproper other hother)
    rw [hs.descendants_eq hd hk hkname, Closing.mem_namesIn_iff hs.sound hy hbelow]
    exact (hmeet y).1 hym k (hbits.2 ⟨hk, other, hother, hkname⟩)
  · intro hall
    obtain ⟨y, hy, hbelow⟩ := (hs.proper_iff hd).1 (hall upper hupper).1
    refine ⟨y, hy, (hmeet y).2 fun k hk => ?_, hbelow⟩
    obtain ⟨hkl, other, hother, hkname⟩ := hbits.1 hk
    have := hall other hother
    rwa [hs.descendants_eq hd hkl hkname, Closing.mem_namesIn_iff hs.sound hy hbelow] at this

end Hierarchy.Stages

namespace Lattice

/-! ## Types of the lattice -/

/-- The declared types that are no leaf types and that a type of the lattice subsumes. -/
def declaredBelow (types : List (String × List String)) (l : Lattice) (t : TypeId) : Set String :=
  {name | Declarations.Proper types name ∧
    ∃ s, l.typeId? name = some s ∧ (l.subsumes t s).1 = true}

section Stages

variable {types : List (String × List String)} {d : Declarations} {draft : Draft}
  {order : List Nat} {c : Closing} {final : List Nat} {l : Lattice}
  (hs : Hierarchy.Stages d draft order c final)
  (hd : Declarations.initial.declareAll types = .ok d) (hl : l.Sound)
  (heq : l.hierarchy = Hierarchy.ofDraft c.draft final)
include hs heq

/-- A coded type has a bit, and every bit is that of a coded type. -/
theorem isProper_iff_bit {i : Nat} : l.isProper (.of i) = true ↔
    ∃ a < c.codes.size, ∃ hi : i < (Hierarchy.sequence c.draft final).length,
      (Hierarchy.sequence c.draft final)[i] = c.typeAt a := by
  rw [isProper, decide_eq_true_eq, heq]
  constructor
  · intro hi
    have hil : i < (Hierarchy.sequence c.draft final).length := by
      refine Nat.lt_of_lt_of_le hi ?_
      rw [Hierarchy.firstLeaf_ofDraft hs.sound.linked hs.sound.classified hs.final,
        Hierarchy.sequence, List.length_append]
      exact Nat.le_add_right _ _
    obtain ⟨a, ha, heq⟩ := hs.sound.exists_typeAt
      (hs.sequence_ordered.mem_iff.1 (List.getElem_mem hil)) ((hs.lt_firstLeaf_iff hil).1 hi)
    exact ⟨a, ha, hil, heq.symm⟩
  · rintro ⟨a, ha, hi, hbit⟩
    rw [hs.lt_firstLeaf_iff hi, hbit]
    exact Closing.isLeaf_typeAt hs.sound ha

include hd in
/-- A declared type is coded when its declarations say that it is no leaf type. -/
theorem isProper_iff_declared {name : String} (hname : Declarations.Declared types name) :
    ∃ t, l.typeId? name = some t ∧ (l.isProper t = true ↔ Declarations.Proper types name) := by
  obtain ⟨t, ht, -, i, hi, hit, hnumber⟩ := hs.placed hd hname
  refine ⟨.of i, by rw [typeId?, heq, hnumber], ?_⟩
  rw [isProper, decide_eq_true_eq, heq, hs.lt_firstLeaf_iff hi, hit, Declarations.Proper,
    and_iff_right hname, ← hs.isLeaf_iff_declared hd ht, Bool.not_eq_true]

include hd hl

theorem declaredBelow_eq {i a : Nat} (ha : a < c.codes.size)
    (hi : i < (Hierarchy.sequence c.draft final).length)
    (hbit : (Hierarchy.sequence c.draft final)[i] = c.typeAt a) :
    l.declaredBelow types (.of i) = c.namesIn (draft.opening order).codes.size d.names a := by
  -- a declared type is above just when the code has its bit
  have hcode : ∀ {x name}, x < (draft.opening order).codes.size →
      d.names.name? (c.typeAt x) = some name →
      ((∃ s, l.typeId? name = some s ∧ (l.subsumes (.of i) s).1 = true) ↔
        (c.codeOf a).contains x = true) := by
    intro x name hx hname
    obtain ⟨t, ht, -, j, hj, hjt, hnumber⟩ :=
      hs.placed hd ((Declarations.declared_iff hd).2 ⟨_, hname⟩)
    have htx : t = c.typeAt x := by
      rw [← NameTable.index?_eq_some_iff] at ht hname
      exact Option.some.inj (ht.symm.trans hname)
    have hid : l.typeId? name = some (.of j) := by rw [typeId?, heq, hnumber]
    have hjl : j < l.hierarchy.size := by rw [heq, hs.size_eq]; exact hj
    simp only [hid, Option.some.injEq, exists_eq_left', hl.subsumes_iff, hl.hierarchy.le_of_iff hjl]
    rw [heq, hs.below_iff hi hj, hjt, htx, hbit, hs.sound.contains_iff ha,
      and_iff_right (hs.base_lt hx)]
  ext name
  constructor
  · rintro ⟨hproper, hbelow⟩
    obtain ⟨x, hx, hname⟩ := (hs.proper_iff hd).1 hproper
    exact ⟨x, hx, (hcode hx hname).1 hbelow, hname⟩
  · rintro ⟨x, hx, hxa, hname⟩
    exact ⟨(hs.proper_iff hd).2 ⟨x, hx, hname⟩, (hcode hx hname).2 hxa⟩

theorem mapsTo_declaredBelow : Set.MapsTo (l.declaredBelow types) {t | l.isProper t = true}
    (Declarations.Intersections types) := by
  intro t ht
  cases t with
  | bottom => cases ht
  | of i =>
    obtain ⟨a, ha, hi, hbit⟩ := (isProper_iff_bit hs heq).1 ht
    rw [declaredBelow_eq hs hd hl heq ha hi hbit]
    exact hs.namesIn_mem_intersections hd ha

theorem injOn_declaredBelow : Set.InjOn (l.declaredBelow types) {t | l.isProper t = true} := by
  intro s hs' t ht hst
  cases s with
  | bottom => cases hs'
  | of i =>
    cases t with
    | bottom => cases ht
    | of j =>
      obtain ⟨a, ha, hi, hia⟩ := (isProper_iff_bit hs heq).1 hs'
      obtain ⟨b, hb, hj, hjb⟩ := (isProper_iff_bit hs heq).1 ht
      rw [declaredBelow_eq hs hd hl heq ha hi hia, declaredBelow_eq hs hd hl heq hb hj hjb] at hst
      have hab := Closing.eq_of_namesIn_eq hs.sound (fun x => hs.exists_name_base) ha hb hst
      rw [← hab, ← hia] at hjb
      exact congrArg TypeId.of (hs.sequence_ordered.nodup.getElem_inj_iff.1 hjb.symm)

theorem surjOn_declaredBelow : Set.SurjOn (l.declaredBelow types) {t | l.isProper t = true}
    (Declarations.Intersections types) := by
  intro set hset
  obtain ⟨a, ha, rfl⟩ := hs.exists_namesIn_eq hd hset
  obtain ⟨i, hi, hbit⟩ := List.getElem_of_mem
    (hs.sequence_ordered.mem_iff.2 (hs.sound.typeAt_lt ha))
  exact ⟨.of i, (isProper_iff_bit hs heq).2 ⟨a, ha, hi, hbit⟩,
    declaredBelow_eq hs hd hl heq ha hi hbit⟩

end Stages

/-- The coded types of a lattice that is built from declarations, the declared ones among them, are
one for each intersection of what is declared below coded types that is not empty: each is known by
the declared types below it, and none is there without need. -/
theorem bijOn_declaredBelow {types : List (String × List String)} {d : Declarations}
    {l₀ l : Lattice} (hd : Declarations.initial.declareAll types = .ok d)
    (hbuilt : ofDeclarations d = .ok l₀) (hgrown : Grown l₀ l) :
    (∀ name, Declarations.Declared types name →
      ∃ t, l.typeId? name = some t ∧ (l.isProper t = true ↔ Declarations.Proper types name)) ∧
    Set.BijOn (l.declaredBelow types) {t | l.isProper t = true}
      (Declarations.Intersections types) := by
  have hl := (sound_of_declarations hd hbuilt).of_grown hgrown
  obtain ⟨draft, order, c, final, hs, heq⟩ := exists_stages hd hbuilt hgrown
  exact ⟨fun _ => isProper_iff_declared hs hd heq, mapsTo_declaredBelow hs hd hl heq,
    injOn_declaredBelow hs hd hl heq, surjOn_declaredBelow hs hd hl heq⟩

/-- Two types that share two subtypes, after a question. -/
theorem bijOn_declaredBelow_diamond : ∃ (d : Declarations) (l₀ l : Lattice),
    Declarations.initial.declareAll
      [("a", []), ("b", []), ("c", ["a", "b"]), ("d", ["a", "b"])] = .ok d ∧
    ofDeclarations d = .ok l₀ ∧ Grown l₀ l ∧
    (∀ name, Declarations.Declared
      [("a", []), ("b", []), ("c", ["a", "b"]), ("d", ["a", "b"])] name →
      ∃ t, l.typeId? name = some t ∧ (l.isProper t = true ↔ Declarations.Proper
        [("a", []), ("b", []), ("c", ["a", "b"]), ("d", ["a", "b"])] name)) ∧
    Set.BijOn (l.declaredBelow [("a", []), ("b", []), ("c", ["a", "b"]), ("d", ["a", "b"])])
      {t | l.isProper t = true}
      (Declarations.Intersections
        [("a", []), ("b", []), ("c", ["a", "b"]), ("d", ["a", "b"])]) := by
  obtain ⟨d, l₀, hd, hl, -⟩ := built_diamond
  have hgrown : Grown l₀ (l₀.unify (.of 1) (.of 2)).2 := .unify _ _ (.refl _)
  exact ⟨d, l₀, _, hd, hl, hgrown, bijOn_declaredBelow hd hl hgrown⟩

end Lattice

end FeatureLogic
