import FeatureLogic.Proofs.Lattice.Knowledge
import FeatureLogic.Proofs.Lattice.TableText

/-!
Known greatest lower bounds do not show in the answers. Whatever a lattice has been asked, and
whatever tables it has loaded that lattices of its declarations wrote, it knows nothing but what it
would work out itself (`Lattice.Cached`). So it answers as a lattice does that knows nothing
(`Lattice.unify_served`).
-/

namespace FeatureLogic

/-- An entry that a hierarchy bears out: for two different types other than the universal one, the
smaller first, with their greatest lower bound. -/
def Hierarchy.Entry (h : Hierarchy) (pair : TypeId × TypeId) (glb : TypeId) : Prop :=
  ∃ lo hi, pair = (TypeId.of lo, TypeId.of hi) ∧ 0 < lo ∧ lo < hi ∧ hi < h.size ∧
    glb = h.meetDistinct lo hi

namespace Lattice

/-- A lattice of a finished hierarchy that knows only what this bears out. -/
structure Cached (l : Lattice) : Prop where
  hierarchy : l.hierarchy.Sound
  known : ∀ {pair glb}, l.known[pair]? = some glb → l.hierarchy.Entry pair glb

/-- The second lattice comes of the first one by questions, new atoms and tables that lattices of
the declarations wrote at any time. Tables that are refused and names that are looked up change
nothing. -/
inductive Served (d : Declarations) : Lattice → Lattice → Prop
  | refl (l : Lattice) : Served d l l
  | intern {l l' : Lattice} (name : String) (h : Served d l l') : Served d l (l'.intern name).2
  | unify {l l' : Lattice} (s t : TypeId) (h : Served d l l') : Served d l (l'.unify s t).2
  | subsumes {l l' : Lattice} (s t : TypeId) (h : Served d l l') : Served d l (l'.subsumes s t).2
  | saturate {l l' : Lattice} (h : Served d l l') : Served d l l'.saturate
  | load {l l' fresh other next : Lattice} {count : Nat} (h : Served d l l')
      (hbuilt : ofDeclarations d = .ok fresh) (hother : Served d fresh other)
      (hload : l'.loadTable (Text.encode other.known.render) = .ok (count, next)) : Served d l next

/-! ## One step -/

section Steps

variable {l : Lattice}

theorem Cached.sound (hl : l.Cached) : l.Sound where
  hierarchy := hl.hierarchy
  known h := by
    obtain ⟨lo, hi, hpair, -, -, -, hglb⟩ := hl.known h
    cases hpair
    exact hglb

/-- What is looked up is a pair of two different types other than the universal one. -/
theorem lt_of_easyGlb {s t : TypeId} {lo hi : Nat} (h : l.easyGlb s t = .inr (lo, hi)) :
    0 < lo ∧ lo < hi ∧ hi < l.typeCount := by
  cases s with
  | bottom => cases h
  | of s =>
    cases t with
    | bottom => cases h
    | of t =>
      simp only [easyGlb] at h
      split at h
      · cases h
      split at h
      · cases h
      cases h
      omega

theorem easyGlb_of_lt {lo hi : Nat} (h₀ : 0 < lo) (hlt : lo < hi) (hhi : hi < l.typeCount) :
    l.easyGlb (.of lo) (.of hi) = .inr (lo, hi) := by
  have hmin : min lo hi = lo := Nat.min_eq_left (Nat.le_of_lt hlt)
  have hmax : max lo hi = hi := Nat.max_eq_right (Nat.le_of_lt hlt)
  simp only [easyGlb, hmin, hmax]
  rw [if_neg (by omega), if_neg (by omega)]

theorem mem_known_unify (s t : TypeId) {pair : TypeId × TypeId} (h : pair ∈ l.known) :
    pair ∈ (l.unify s t).2.known := by
  unfold unify
  split
  · exact h
  · split
    · exact h
    · exact Std.TreeMap.mem_insertIfNew.2 (.inr h)

/-- A pair that was asked for is known. -/
theorem asked_mem_known {lo hi : Nat} (h₀ : 0 < lo) (hlt : lo < hi) (hhi : hi < l.typeCount) :
    (TypeId.of lo, TypeId.of hi) ∈ (l.unify (.of lo) (.of hi)).2.known := by
  unfold unify
  rw [easyGlb_of_lt h₀ hlt hhi]
  simp only
  split
  · rename_i answer hknown
    rw [← Std.TreeMap.isSome_getElem?_iff_mem, hknown]
    rfl
  · exact Std.TreeMap.mem_insertIfNew_self

theorem mem_known_subsumes (s t : TypeId) {pair : TypeId × TypeId} (h : pair ∈ l.known) :
    pair ∈ (l.subsumes s t).2.known := by
  unfold subsumes
  split
  · exact h
  · exact mem_known_unify s t h

theorem known_intern (l : Lattice) (name : String) : (l.intern name).2.known = l.known := by
  unfold intern
  split <;> rfl

theorem mem_known_saturate {pair : TypeId × TypeId} (h : pair ∈ l.known) :
    pair ∈ l.saturate.known :=
  saturate_induct (P := fun l' => pair ∈ l'.known) (fun s t => mem_known_unify s t) h

theorem Cached.unify (hl : l.Cached) (s t : TypeId) : (l.unify s t).2.Cached := by
  unfold Lattice.unify
  split
  · exact hl
  · split
    · exact hl
    · rename_i lo hi heasy _ _
      refine ⟨hl.hierarchy, fun h => ?_⟩
      rcases GlbTable.getElem?_learn h with ⟨rfl, rfl⟩ | hknown
      · obtain ⟨h₀, hlt, hhi⟩ := lt_of_easyGlb heasy
        exact ⟨lo, hi, rfl, h₀, hlt, hhi, rfl⟩
      · exact hl.known hknown

theorem Cached.subsumes (hl : l.Cached) (s t : TypeId) : (l.subsumes s t).2.Cached := by
  unfold Lattice.subsumes
  split
  · exact hl
  · exact hl.unify s t

theorem Cached.intern (hl : l.Cached) (name : String) : (l.intern name).2.Cached := by
  unfold Lattice.intern
  split
  · exact hl
  · exact ⟨hl.hierarchy, hl.known⟩

theorem Cached.saturate (hl : l.Cached) : l.saturate.Cached :=
  saturate_induct (fun s t h => h.unify s t) hl

/-! ## Saturation -/

/-- What one turn of a loop brings about and the other turns keep is there after the loop. -/
theorem foldl_reaches {P Q : Lattice → Prop} {step : Lattice → Nat → Lattice} {x : Nat}
    (hkeep : ∀ {l} y, Q l → Q (step l y)) (hstay : ∀ {l} y, P l → P (step l y))
    (hreach : ∀ {l}, Q l → P (step l x)) {list : List Nat} (hx : x ∈ list) {l : Lattice}
    (hl : Q l) : P (list.foldl step l) := by
  induction list generalizing l with
  | nil => cases hx
  | cons y rest ih =>
    rw [List.foldl_cons]
    rcases List.mem_cons.1 hx with rfl | hx
    · exact List.foldlRecOn rest _ (hreach hl) fun l h z _ => hstay z h
    · exact ih hx (hkeep y hl)

/-- What the question for one pair brings about and all other questions keep is there after all
pairs were asked for. -/
theorem saturate_reaches {P Q : Lattice → Prop} {lo hi : Nat} (h₀ : 0 < lo) (hlt : lo < hi)
    (hkeep : ∀ {l} (s t : TypeId), Q l → Q (l.unify s t).2)
    (hstay : ∀ {l} (s t : TypeId), P l → P (l.unify s t).2)
    (hcount : ∀ {l}, Q l → hi < l.typeCount)
    (hreach : ∀ {l}, Q l → P (l.unify (.of lo) (.of hi)).2) (hl : Q l) : P l.saturate := by
  -- what every question keeps, each turn of the inner and of the outer loop keeps
  have hinner : ∀ {R : Lattice → Prop}, (∀ {l} (s t : TypeId), R l → R (l.unify s t).2) →
      ∀ {l'} s t, R l' → R (if 0 < s ∧ s < t then (l'.unify (.of s) (.of t)).2 else l') := by
    intro R hR l' s t h
    split
    · exact hR _ _ h
    · exact h
  have houter : ∀ {R : Lattice → Prop}, (∀ {l} (s t : TypeId), R l → R (l.unify s t).2) →
      ∀ {l'} s, R l' → R ((List.range l'.typeCount).foldl (fun l t =>
        if 0 < s ∧ s < t then (l.unify (.of s) (.of t)).2 else l) l') := fun hR _ s h =>
    List.foldlRecOn _ _ h fun _ h t _ => hinner hR s t h
  refine foldl_reaches (houter hkeep) (houter hstay) (fun {l₁} h₁ => ?_)
    (List.mem_range.2 (Nat.lt_trans hlt (hcount hl))) hl
  refine foldl_reaches (hinner hkeep lo) (hinner hstay lo) (fun {l₂} h₂ => ?_)
    (List.mem_range.2 (hcount h₁)) h₁
  rw [if_pos ⟨h₀, hlt⟩]
  exact hreach h₂

/-- Every pair is known after all of them were asked for. -/
theorem mem_known_of_saturate {lo hi : Nat} (h₀ : 0 < lo) (hlt : lo < hi) (hhi : hi < l.typeCount) :
    (TypeId.of lo, TypeId.of hi) ∈ l.saturate.known := by
  refine saturate_reaches (P := fun l' => (TypeId.of lo, TypeId.of hi) ∈ l'.known)
    (Q := fun l' => hi < l'.typeCount) h₀ hlt (fun {l'} s t h => ?_)
    (fun s t => mem_known_unify s t) id (asked_mem_known h₀ hlt) hhi
  rw [typeCount, hierarchy_unify]
  exact h

/-! ## Tables of other lattices -/

theorem Cached.within (hl : l.Cached) : ∀ entry ∈ l.known.toList,
    GlbTable.Within l.typeCount entry := by
  rintro ⟨pair, glb⟩ hmem
  obtain ⟨lo, hi, rfl, -, hlt, hhi, rfl⟩ :=
    hl.known (Std.TreeMap.mem_toList_iff_getElem?_eq_some.1 hmem)
  refine ⟨⟨lo, hi, rfl, Nat.le_of_lt hlt, hhi⟩, fun {g} hg => ?_⟩
  have hmeet := hl.hierarchy.isMeet_meetDistinct (Nat.lt_trans hlt hhi) hhi (Nat.ne_of_lt hlt)
  have hg : l.hierarchy.meetDistinct lo hi = .of g := hg
  rw [hg] at hmeet
  exact hl.hierarchy.lt_size_of_below hmeet.2.1 hhi

/-- A table that a lattice of the same hierarchy wrote holds what it knows. -/
theorem Cached.readTable {other : Lattice} (hother : other.Cached)
    (hsame : other.hierarchy = l.hierarchy) :
    l.readTable (Text.encode other.known.render) = .ok (GlbTable.ofEntries other.known.toList) ∨
      2 ^ 63 < l.typeCount ∧ ∃ e, l.readTable (Text.encode other.known.render) = .error e := by
  have hcount : other.typeCount = l.typeCount := congrArg Hierarchy.size hsame
  exact GlbTable.read_render (hcount ▸ hother.within)

/-- It is never refused if the numbers of types fit in 63 bits. -/
theorem Cached.exists_loadTable {other : Lattice} (hother : other.Cached)
    (hsame : other.hierarchy = l.hierarchy) (hcount : l.typeCount ≤ 2 ^ 63) :
    ∃ count next, l.loadTable (Text.encode other.known.render) = .ok (count, next) := by
  rcases hother.readTable hsame with hread | ⟨hlt, -⟩
  · exact ⟨_, _, by rw [Lattice.loadTable, hread]; rfl⟩
  · omega

/-- A loaded table adds what the hierarchy bears out, and what is known stays. -/
theorem Cached.loadTable (hl : l.Cached) {other next : Lattice} (hother : other.Cached)
    (hsame : other.hierarchy = l.hierarchy) {count : Nat}
    (hload : l.loadTable (Text.encode other.known.render) = .ok (count, next)) :
    next.Cached ∧ next.hierarchy = l.hierarchy ∧ ∀ pair ∈ l.known, pair ∈ next.known := by
  rw [Lattice.loadTable] at hload
  rcases hother.readTable hsame with hread | ⟨-, e, hread⟩
  swap
  · rw [hread] at hload
    cases hload
  rw [hread] at hload
  simp only [Except.map, Except.ok.injEq, Prod.mk.injEq] at hload
  obtain ⟨-, rfl⟩ := hload
  have hentries : (GlbTable.ofEntries other.known.toList).toList = other.known.toList :=
    (GlbTable.ofEntries_toList_equiv _).toList_eq
  rw [GlbTable.learnAll, hentries]
  refine ⟨⟨hl.hierarchy, ?_⟩, rfl, ?_⟩
  · -- every entry of the table is one that the hierarchy bears out, under its canonical pair
    refine List.foldlRecOn (motive := fun table : GlbTable => ∀ {pair glb},
      table[pair]? = some glb → l.hierarchy.Entry pair glb) _ _ hl.known fun table h entry hmem => ?_
    intro pair glb hpair
    rcases GlbTable.getElem?_learn hpair with ⟨rfl, rfl⟩ | hold
    · have hentry := hother.known (Std.TreeMap.mem_toList_iff_getElem?_eq_some.1 hmem)
      rw [hsame] at hentry
      obtain ⟨lo, hi, hpair, -, hlt, -⟩ := id hentry
      rw [hpair, GlbTable.canonical, if_pos (TypeId.of_le_of.2 (Nat.le_of_lt hlt)), ← hpair]
      exact hentry
    · exact h hold
  · intro pair hmem
    refine List.foldlRecOn (motive := fun table : GlbTable => pair ∈ table) _ _ hmem
      fun table h entry _ => ?_
    exact Std.TreeMap.mem_insertIfNew.2 (.inr h)

end Steps

/-! ## Any history -/

theorem cached_of_declarations {types : List (String × List String)} {d : Declarations}
    {l : Lattice} (hd : Declarations.initial.declareAll types = .ok d)
    (hl : ofDeclarations d = .ok l) : l.Cached := by
  refine ⟨(sound_of_declarations hd hl).hierarchy, fun {pair glb} h => ?_⟩
  rw [(eq_of_declarations hl).2] at h
  have hnone : (∅ : GlbTable)[pair]? = some glb := h
  rw [Std.TreeMap.getElem?_emptyc] at hnone
  cases hnone

theorem Cached.of_served {types : List (String × List String)} {d : Declarations} {l l' : Lattice}
    (hd : Declarations.initial.declareAll types = .ok d) (h : Served d l l')
    (hbuilt : Hierarchy.ofDeclarations d = .ok l.hierarchy) (hl : l.Cached) :
    l'.Cached ∧ l'.hierarchy = l.hierarchy ∧ ∀ pair ∈ l.known, pair ∈ l'.known := by
  induction h with
  | refl => exact ⟨hl, rfl, fun _ => id⟩
  | intern name _ ih =>
    obtain ⟨hc, hh, hk⟩ := ih hbuilt hl
    refine ⟨hc.intern name, (hierarchy_intern _ name).trans hh, fun pair hp => ?_⟩
    rw [known_intern]
    exact hk pair hp
  | unify s t _ ih =>
    obtain ⟨hc, hh, hk⟩ := ih hbuilt hl
    exact ⟨hc.unify s t, (hierarchy_unify _ s t).trans hh,
      fun pair hp => mem_known_unify s t (hk pair hp)⟩
  | subsumes s t _ ih =>
    obtain ⟨hc, hh, hk⟩ := ih hbuilt hl
    exact ⟨hc.subsumes s t, (hierarchy_subsumes _ s t).trans hh,
      fun pair hp => mem_known_subsumes s t (hk pair hp)⟩
  | saturate _ ih =>
    obtain ⟨hc, hh, hk⟩ := ih hbuilt hl
    exact ⟨hc.saturate, (hierarchy_saturate _).trans hh,
      fun pair hp => mem_known_saturate (hk pair hp)⟩
  | @load l l' fresh other next count _ hfresh _ hload ih ihother =>
    obtain ⟨hc, hh, hk⟩ := ih hbuilt hl
    -- the other lattice has the same hierarchy, as this comes from the declarations alone
    have hfresh' := (eq_of_declarations hfresh).1
    obtain ⟨hco, hho, -⟩ := ihother hfresh' (cached_of_declarations hd hfresh)
    have hsame : other.hierarchy = l'.hierarchy := by
      rw [hho, hh]
      exact Except.ok.inj (hfresh'.symm.trans hbuilt)
    obtain ⟨hcn, hhn, hkn⟩ := hc.loadTable hco hsame hload
    exact ⟨hcn, hhn.trans hh, fun pair hp => hkn pair (hk pair hp)⟩

/-- A lattice that is built from declarations answers as one that knows nothing, whatever it has
been asked and whatever tables of lattices of these declarations it has loaded. It only ever knows
canonical pairs of two different types other than the universal one, and all of them once it was
saturated. -/
theorem unify_served {types : List (String × List String)} {d : Declarations} {l₀ l : Lattice}
    (hd : Declarations.initial.declareAll types = .ok d) (hbuilt : ofDeclarations d = .ok l₀)
    (h : Served d l₀ l) :
    (∀ cold : Lattice, cold.hierarchy = l.hierarchy → cold.known.isEmpty = true → ∀ s t,
      (l.unify s t).1 = (cold.unify s t).1 ∧ (l.subsumes s t).1 = (cold.subsumes s t).1) ∧
    (∀ pair ∈ l.known, ∃ lo hi, pair = (TypeId.of lo, TypeId.of hi) ∧
      0 < lo ∧ lo < hi ∧ hi < l.typeCount) ∧
    ∀ l', Served d l.saturate l' → ∀ lo hi, 0 < lo → lo < hi → hi < l.typeCount →
      (TypeId.of lo, TypeId.of hi) ∈ l'.known := by
  have hhierarchy := (eq_of_declarations hbuilt).1
  obtain ⟨hl, hsame, -⟩ := (cached_of_declarations hd hbuilt).of_served hd h hhierarchy
  refine ⟨fun cold hcold hempty s t => ?_, fun pair hpair => ?_, fun l' h' lo hi h₀ hlt hhi => ?_⟩
  · have hc : cold.Cached := by
      refine ⟨hcold ▸ hl.hierarchy, fun hknown => ?_⟩
      rw [Std.TreeMap.getElem?_of_isEmpty hempty] at hknown
      cases hknown
    refine ⟨?_, Bool.eq_iff_iff.2 ?_⟩
    · rw [hl.sound.unify_eq_glb, hc.sound.unify_eq_glb, glb_congr hcold s t]
    · rw [hl.sound.subsumes_iff, hc.sound.subsumes_iff, hcold]
  · obtain ⟨glb, hglb⟩ := Option.isSome_iff_exists.1 (Std.TreeMap.isSome_getElem?_iff_mem.2 hpair)
    obtain ⟨lo, hi, rfl, h₀, hlt, hhi, -⟩ := hl.known hglb
    exact ⟨lo, hi, rfl, h₀, hlt, hhi⟩
  · have hsaturated : Hierarchy.ofDeclarations d = .ok l.saturate.hierarchy := by
      rw [hierarchy_saturate, hsame, hhierarchy]
    exact (hl.saturate.of_served hd h' hsaturated).2.2 _ (mem_known_of_saturate h₀ hlt hhi)

/-- A lattice that was asked for one pair and has loaded what a saturated one wrote. -/
theorem unify_served_diamond : ∃ (d : Declarations) (l₀ l : Lattice) (count : Nat),
    Declarations.initial.declareAll
      [("a", []), ("b", []), ("c", ["a", "b"]), ("d", ["a", "b"])] = .ok d ∧
    ofDeclarations d = .ok l₀ ∧ (l₀.unify (.of 1) (.of 2)).2.loadTable
      (Text.encode l₀.saturate.known.render) = .ok (count, l) ∧ Served d l₀ l ∧
    (∀ cold : Lattice, cold.hierarchy = l.hierarchy → cold.known.isEmpty = true → ∀ s t,
      (l.unify s t).1 = (cold.unify s t).1 ∧ (l.subsumes s t).1 = (cold.subsumes s t).1) ∧
    (∀ pair ∈ l.known, ∃ lo hi, pair = (TypeId.of lo, TypeId.of hi) ∧
      0 < lo ∧ lo < hi ∧ hi < l.typeCount) ∧
    ∀ l', Served d l.saturate l' → ∀ lo hi, 0 < lo → lo < hi → hi < l.typeCount →
      (TypeId.of lo, TypeId.of hi) ∈ l'.known := by
  obtain ⟨d, l₀, hd, hl, hcount⟩ := built_diamond
  have hcached := cached_of_declarations hd hl
  have hcount' : (l₀.unify (.of 1) (.of 2)).2.typeCount ≤ 2 ^ 63 := by
    rw [typeCount, hierarchy_unify]
    exact hcount.trans_le (by decide)
  obtain ⟨count, l, hload⟩ := hcached.saturate.exists_loadTable
    (by rw [hierarchy_saturate, hierarchy_unify]) hcount'
  have hserved : Served d l₀ l := .load (.unify _ _ (.refl _)) hl (.saturate (.refl _)) hload
  exact ⟨d, l₀, l, count, hd, hl, hload, hserved, unify_served hd hl hserved⟩

end Lattice

end FeatureLogic
