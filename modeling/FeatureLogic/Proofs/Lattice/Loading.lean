import FeatureLogic.Proofs.Lattice.TableText

/-!
Reading tables of greatest lower bounds. A text is read when each of its lines says something
(`GlbTable.readLines_eq_ok_iff`); of two lines for one pair the later counts, and of two entries
for one pair in a table and in what it learns the older (`Lattice.table_text_spec`).
-/

namespace FeatureLogic

namespace GlbTable

/-! ## What lines say -/

/-- The type that the last number of a line stands for. -/
def resultOf (number : Int) : TypeId := if number = -1 then .bottom else .of number.toNat

/-- What a line says for a lattice with `count` types: nothing if it is blank, an entry if it has
three numbers of which the first two are types of the lattice, in any order, and the last is one or
stands for `bottom`. -/
inductive Says (count : Nat) (text : String) : Option ((TypeId × TypeId) × TypeId) → Prop
  | blank (hblank : ∀ c ∈ text.toList, Text.isBlank c = true) : Says count text none
  | entry {a b : Nat} {number : Int}
      (hwords : (Text.words (Text.trim text.toList)).mapM Text.int64? =
        some [(a : Int), (b : Int), number])
      (ha : a < count) (hb : b < count) (hresult : number = -1 ∨ 0 ≤ number ∧ number < count) :
      Says count text (some ((.of (min a b), .of (max a b)), resultOf number))

/-- Every line says something, and these are the entries. A line that is no text says nothing at
all. -/
inductive Lists (count : Nat) : List (Option String) → List ((TypeId × TypeId) × TypeId) → Prop
  | nil : Lists count [] []
  | line {text : String} {said : Option ((TypeId × TypeId) × TypeId)} {lines : List (Option String)}
      {entries : List ((TypeId × TypeId) × TypeId)} (hsaid : Says count text said)
      (h : Lists count lines entries) : Lists count (some text :: lines) (said.toList ++ entries)

theorem canonical_of (a b : Nat) : canonical (.of a) (.of b) = (.of (min a b), .of (max a b)) := by
  rcases Nat.le_total a b with hle | hle
  · rw [canonical, if_pos (TypeId.of_le_of.2 hle), Nat.min_eq_left hle, Nat.max_eq_right hle]
  · rcases Nat.eq_or_lt_of_le hle with rfl | hlt
    · simp [canonical]
    · rw [canonical, if_neg fun h => Nat.not_le.2 hlt (TypeId.of_le_of.1 h), Nat.min_eq_right hle,
        Nat.max_eq_left hle]

theorem checkedType_eq_ok_iff {line count : Nat} {id : Int} {t : TypeId} :
    checkedType line count id = .ok t ↔ ∃ n : Nat, id = n ∧ n < count ∧ t = .of n := by
  rw [checkedType]
  split
  · rename_i hout
    refine iff_of_false (fun h => by cases h) ?_
    rintro ⟨n, rfl, hn, -⟩
    omega
  · rename_i hin
    rw [not_or, Int.not_lt, Int.not_le] at hin
    obtain ⟨n, rfl⟩ := Int.eq_ofNat_of_zero_le hin.1
    rw [Int.toNat_natCast, Except.ok.injEq]
    constructor
    · rintro rfl
      exact ⟨n, rfl, by omega, rfl⟩
    · rintro ⟨m, hm, -, rfl⟩
      rw [Int.ofNat.inj hm]

/-- The last number of a line is checked unless it stands for `bottom`. -/
theorem checkedResult_eq_ok_iff {line count : Nat} {number : Int} {t : TypeId} :
    (if number = -1 then .ok .bottom else checkedType line count number) = Except.ok t ↔
      (number = -1 ∨ 0 ≤ number ∧ number < count) ∧ t = resultOf number := by
  rw [resultOf]
  split
  · rename_i hbottom
    simp [hbottom, eq_comm]
  · rename_i hne
    rw [checkedType_eq_ok_iff]
    constructor
    · rintro ⟨n, rfl, hn, rfl⟩
      exact ⟨.inr ⟨by omega, by omega⟩, by rw [Int.toNat_natCast]⟩
    · rintro ⟨hrange, rfl⟩
      obtain ⟨n, rfl⟩ := Int.eq_ofNat_of_zero_le (hrange.resolve_left hne).1
      exact ⟨n, rfl, by omega, by rw [Int.toNat_natCast]⟩

theorem bind_eq_ok_iff {α β : Type} {x : Except GlbTableError α} {f : α → Except GlbTableError β}
    {y : β} : x.bind f = .ok y ↔ ∃ a, x = .ok a ∧ f a = .ok y := by
  cases x <;> simp [Except.bind]

/-- A line is read as what it says. -/
theorem readLine_eq_ok_iff {count line : Nat} {text : String}
    {said : Option ((TypeId × TypeId) × TypeId)} :
    readLine count line text = .ok said ↔ Says count text said := by
  rw [readLine]
  by_cases hnil : Text.trim text.toList = []
  · simp only [hnil, List.isEmpty_nil, if_true, Except.ok.injEq]
    constructor
    · rintro rfl
      exact .blank (Text.trim_eq_nil_iff.1 hnil)
    · intro h
      cases h with
      | blank => rfl
      | entry hwords =>
        rw [hnil] at hwords
        cases hwords
  · have hblank : ¬ ∀ c ∈ text.toList, Text.isBlank c = true := mt Text.trim_eq_nil_iff.2 hnil
    have hempty : (Text.trim text.toList).isEmpty = false := by simpa using hnil
    simp only [hempty, Bool.false_eq_true, if_false]
    split
    · rename_i t₁ t₂ number hwords
      refine (bind_eq_ok_iff.trans ?_ : Except.bind _ _ = _ ↔ _)
      simp only [checkedType_eq_ok_iff]
      -- the last number is checked in the one case or the other, and what follows is the same
      have hlast : ∀ {a b : Nat}, (if number = -1 then
          Except.bind (.ok .bottom) fun result => .ok (some (canonical (.of a) (.of b), result))
        else Except.bind (checkedType line count number) fun result =>
          .ok (some (canonical (.of a) (.of b), result))) = Except.ok said ↔
          (number = -1 ∨ 0 ≤ number ∧ number < count) ∧
            said = some ((.of (min a b), .of (max a b)), resultOf number) := by
        intro a b
        rw [← apply_ite (Except.bind · _), bind_eq_ok_iff]
        simp only [checkedResult_eq_ok_iff, canonical_of, Except.ok.injEq]
        constructor
        · rintro ⟨_, ⟨hrange, rfl⟩, rfl⟩
          exact ⟨hrange, rfl⟩
        · rintro ⟨hrange, rfl⟩
          exact ⟨_, ⟨hrange, rfl⟩, rfl⟩
      constructor
      · rintro ⟨_, ⟨a, rfl, ha, rfl⟩, h⟩
        obtain ⟨_, hchecked, h⟩ := bind_eq_ok_iff.1 h
        obtain ⟨b, rfl, hb, rfl⟩ := checkedType_eq_ok_iff.1 hchecked
        obtain ⟨hrange, rfl⟩ := hlast.1 h
        exact .entry hwords ha hb hrange
      · intro h
        cases h with
        | blank h => exact absurd h hblank
        | entry hwords' ha hb hrange =>
          -- the line is split in one way only
          cases hwords.symm.trans hwords'
          exact ⟨_, ⟨_, rfl, ha, rfl⟩, bind_eq_ok_iff.2 ⟨_, checkedType_eq_ok_iff.2
            ⟨_, rfl, hb, rfl⟩, hlast.2 ⟨hrange, rfl⟩⟩⟩
    · rename_i hnone
      refine iff_of_false (fun h => by cases h) fun h => ?_
      cases h with
      | blank h => exact hblank h
      | entry hwords => exact hnone _ _ _ hwords

/-- Adds what a line says to the table. -/
def takeLine (count : Nat) (table : GlbTable) : Option String × Nat → Except GlbTableError GlbTable
  | (none, _) => .error (.unreadable invalidTextCause)
  | (some text, index) => (readLine count (index + 1) text).map fun said =>
    said.toList.foldl (fun table (pair, glb) => table.insert pair glb) table

theorem readLines_eq (count : Nat) (lines : List (Option String)) :
    readLines count lines = lines.zipIdx.foldlM (takeLine count) {} := by
  rw [readLines]
  congr 1
  funext table line
  obtain ⟨_ | text, index⟩ := line
  · rfl
  · simp only [takeLine, bind, Except.bind, Except.map]
    rcases readLine count (index + 1) text with _ | _ | _ <;> rfl

theorem takeLine_eq_ok_iff {count k : Nat} {before after : GlbTable} {line : Option String} :
    takeLine count before (line, k) = .ok after ↔ ∃ text said, line = some text ∧
      Says count text said ∧
      after = said.toList.foldl (fun table (pair, glb) => table.insert pair glb) before := by
  cases line with
  | none => simp [takeLine]
  | some text =>
    cases hread : readLine count (k + 1) text with
    | error e =>
      refine iff_of_false (fun h => by simp [takeLine, hread, Except.map] at h) ?_
      rintro ⟨_, said, htext, hsaid, -⟩
      obtain rfl := Option.some.inj htext
      cases hread.symm.trans (readLine_eq_ok_iff.2 hsaid)
    | ok said =>
      simp only [takeLine, hread, Except.map, Except.ok.injEq]
      constructor
      · rintro rfl
        exact ⟨text, said, rfl, readLine_eq_ok_iff.1 hread, rfl⟩
      · rintro ⟨_, said', htext, hsaid, rfl⟩
        obtain rfl := Option.some.inj htext
        cases hread.symm.trans (readLine_eq_ok_iff.2 hsaid)
        rfl

/-- The lines of a text are read just when they all say something. -/
theorem readLines_eq_ok_iff {count : Nat} {lines : List (Option String)} {table : GlbTable} :
    readLines count lines = .ok table ↔
      ∃ entries, Lists count lines entries ∧ table = ofEntries entries := by
  -- by induction on the lines, whatever was read before
  suffices ∀ (k : Nat) (before : GlbTable),
      (lines.zipIdx k).foldlM (takeLine count) before = .ok table ↔
        ∃ entries, Lists count lines entries ∧
          table = entries.foldl (fun table (pair, glb) => table.insert pair glb) before by
    rw [readLines_eq]
    exact this 0 {}
  induction lines with
  | nil =>
    intro k before
    simp only [List.zipIdx_nil, List.foldlM_nil, pure, Except.pure, Except.ok.injEq]
    constructor
    · rintro rfl
      exact ⟨[], .nil, rfl⟩
    · rintro ⟨entries, hlists, rfl⟩
      cases hlists
      rfl
  | cons line lines ih =>
    intro k before
    rw [List.zipIdx_cons, List.foldlM_cons]
    refine (bind_eq_ok_iff.trans ?_ : Except.bind _ _ = _ ↔ _)
    simp only [ih]
    constructor
    · rintro ⟨next, hnext, entries, hlists, rfl⟩
      obtain ⟨text, said, rfl, hsaid, rfl⟩ := takeLine_eq_ok_iff.1 hnext
      exact ⟨_, .line hsaid hlists, List.foldl_append.symm⟩
    · rintro ⟨entries, hlists, rfl⟩
      cases hlists with
      | @line text said _ entries hsaid hlists =>
        exact ⟨_, takeLine_eq_ok_iff.2 ⟨text, said, rfl, hsaid, rfl⟩, entries, hlists,
          List.foldl_append⟩

/-! ## Tables of entries -/

/-- Comparison tells pairs apart. -/
theorem comparePairs_eq_iff {pair pair' : TypeId × TypeId} :
    comparePairs pair pair' = .eq ↔ pair = pair' :=
  ⟨Std.LawfulEqCmp.eq_of_compare, fun h => h ▸ Std.ReflCmp.compare_self⟩

theorem ofEntries_concat (entries : List ((TypeId × TypeId) × TypeId))
    (entry : (TypeId × TypeId) × TypeId) :
    ofEntries (entries ++ [entry]) = (ofEntries entries).insert entry.1 entry.2 := by
  rw [ofEntries, List.foldl_append]
  rfl

/-- Of two entries for one pair the later counts. -/
theorem getElem?_ofEntries (entries : List ((TypeId × TypeId) × TypeId)) (pair : TypeId × TypeId) :
    (ofEntries entries)[pair]? = entries.reverse.lookup pair := by
  induction entries using List.reverseRecOn with
  | nil => rfl
  | append_singleton entries entry ih =>
    rw [ofEntries_concat, Std.TreeMap.getElem?_insert, ih, List.reverse_append,
      List.reverse_singleton, List.singleton_append, List.lookup_cons]
    by_cases heq : entry.1 = pair
    · rw [if_pos (comparePairs_eq_iff.2 heq), heq, beq_self_eq_true]
    · rw [if_neg (mt comparePairs_eq_iff.1 heq), beq_false_of_ne (Ne.symm heq)]

theorem isSome_lookup {entries : List ((TypeId × TypeId) × TypeId)} {pair : TypeId × TypeId} :
    (entries.lookup pair).isSome ↔ pair ∈ entries.map Prod.fst := by
  rw [List.lookup_isSome_iff, List.mem_map]
  refine exists_congr fun entry => and_congr_right fun _ => ?_
  rw [beq_iff_eq, eq_comm]

theorem mem_ofEntries {entries : List ((TypeId × TypeId) × TypeId)} {pair : TypeId × TypeId} :
    pair ∈ ofEntries entries ↔ pair ∈ entries.map Prod.fst := by
  rw [Std.TreeMap.mem_iff_isSome_getElem?, getElem?_ofEntries, isSome_lookup, List.map_reverse,
    List.mem_reverse]

/-- A table has as many entries as there are different pairs. -/
theorem size_ofEntries (entries : List ((TypeId × TypeId) × TypeId)) :
    (ofEntries entries).size = (entries.map Prod.fst).toFinset.card := by
  induction entries using List.reverseRecOn with
  | nil => rfl
  | append_singleton entries entry ih =>
    have hfinset : ((entries ++ [entry]).map Prod.fst).toFinset =
        insert entry.1 (entries.map Prod.fst).toFinset := by
      rw [List.map_append, List.toFinset_append]
      simp [Finset.union_comm]
    rw [ofEntries_concat, Std.TreeMap.size_insert, hfinset, ih]
    by_cases hmem : entry.1 ∈ ofEntries entries
    · have hold := List.mem_toFinset.2 (mem_ofEntries.1 hmem)
      rw [if_pos (Std.TreeMap.contains_iff_mem.2 hmem), Finset.insert_eq_of_mem hold]
    · rw [if_neg (mt Std.TreeMap.contains_iff_mem.1 hmem),
        Finset.card_insert_of_notMem fun h => hmem (mem_ofEntries.2 (List.mem_toFinset.1 h))]

theorem getElem?_learn_eq (table : GlbTable) (pair pair' : TypeId × TypeId) (glb : TypeId) :
    (table.learn pair glb)[pair']? =
      table[pair']?.or (if pair' == pair then some glb else none) := by
  rw [learn, Std.TreeMap.getElem?_insertIfNew]
  by_cases heq : pair = pair'
  · subst heq
    rw [beq_self_eq_true, if_pos rfl]
    by_cases hmem : pair ∈ table
    · obtain ⟨old, hold⟩ := Option.isSome_iff_exists.1 (Std.TreeMap.mem_iff_isSome_getElem?.1 hmem)
      rw [if_neg fun h => h.2 hmem, hold, Option.some_or]
    · rw [if_pos ⟨comparePairs_eq_iff.2 rfl, hmem⟩, Std.TreeMap.getElem?_eq_none hmem,
        Option.none_or]
  · rw [if_neg fun h => heq (comparePairs_eq_iff.1 h.1), beq_false_of_ne (Ne.symm heq)]
    simp

/-- What is known already counts, and of what is learned the first. -/
theorem getElem?_foldl_learn (entries : List ((TypeId × TypeId) × TypeId)) (table : GlbTable)
    (hcanonical : ∀ entry ∈ entries, canonical entry.1.1 entry.1.2 = entry.1)
    (pair : TypeId × TypeId) :
    (entries.foldl (fun table (pair, glb) => learn table (canonical pair.1 pair.2) glb)
      table)[pair]? = table[pair]?.or (entries.lookup pair) := by
  induction entries generalizing table with
  | nil => simp
  | cons entry entries ih =>
    obtain ⟨⟨s, t⟩, glb⟩ := entry
    obtain ⟨hentry, hcanonical⟩ := List.forall_mem_cons.1 hcanonical
    rw [List.foldl_cons, ih _ hcanonical]
    simp only at hentry ⊢
    rw [hentry, getElem?_learn_eq, List.lookup_cons, Option.or_assoc]
    cases pair == (s, t) <;> rfl

theorem getElem?_learnAll {table other : GlbTable}
    (hcanonical : ∀ pair ∈ other, canonical pair.1 pair.2 = pair) (pair : TypeId × TypeId) :
    (table.learnAll other)[pair]? = table[pair]?.or other[pair]? := by
  have hmem : ∀ {pair glb}, (pair, glb) ∈ other.toList ↔ other[pair]? = some glb :=
    Std.TreeMap.mem_toList_iff_getElem?_eq_some
  have hlookup : other.toList.lookup pair = other[pair]? := by
    cases hfound : other.toList.lookup pair with
    | some glb =>
      obtain ⟨before, after, hlist, -⟩ := List.lookup_eq_some_iff.1 hfound
      exact (hmem.1 (by rw [hlist]; simp)).symm
    | none =>
      cases hother : other[pair]? with
      | none => rfl
      | some glb => simpa using List.lookup_eq_none_iff.1 hfound _ (hmem.2 hother)
  rw [learnAll, getElem?_foldl_learn, hlookup]
  rintro ⟨pair, glb⟩ hentry
  refine hcanonical pair (Std.TreeMap.mem_iff_isSome_getElem?.2 ?_)
  rw [hmem.1 hentry]
  rfl

/-- Lines speak of canonical pairs. -/
theorem Lists.canonical {count : Nat} {lines : List (Option String)}
    {entries : List ((TypeId × TypeId) × TypeId)} (h : Lists count lines entries) :
    ∀ pair ∈ entries.map Prod.fst, GlbTable.canonical pair.1 pair.2 = pair := by
  induction h with
  | nil => nofun
  | line hsaid _ ih =>
    cases hsaid with
    | blank => exact ih
    | entry =>
      refine List.forall_mem_cons.2 ⟨?_, ih⟩
      simp only [canonical_of, min_le_max, Nat.min_eq_left, Nat.max_eq_right]

end GlbTable

namespace Lattice

/-- What is read of a text that was written of a table is this table. And a text that is read adds
to what a lattice knows, for each pair that it does not know, what the last line for the pair says;
the number that is told is that of the pairs in the text. A text that is not read adds nothing. -/
theorem table_text_spec :
    (∀ (count : Nat) (table : GlbTable), count < 2 ^ 32 →
      (∀ entry ∈ table.toList, GlbTable.Within count entry) →
      ∃ found, GlbTable.read count (Text.encode table.render) = .ok found ∧ found.Equiv table) ∧
    ∀ (l : Lattice) (bytes : List UInt8),
      ((∃ e, l.loadTable bytes = .error e) ∧
        ∀ entries, ¬ GlbTable.Lists l.typeCount (Text.lines bytes) entries) ∨
      ∃ (entries : List ((TypeId × TypeId) × TypeId)) (l' : Lattice),
        GlbTable.Lists l.typeCount (Text.lines bytes) entries ∧
        l.loadTable bytes = .ok ((entries.map Prod.fst).toFinset.card, l') ∧
        l'.hierarchy = l.hierarchy ∧ l'.atoms = l.atoms ∧
        ∀ pair, l'.known[pair]? = l.known[pair]?.or (entries.reverse.lookup pair) := by
  constructor
  · intro count table hcount hwithin
    rcases GlbTable.read_render hwithin with hread | ⟨hwide, -⟩
    · exact ⟨_, hread, GlbTable.ofEntries_toList_equiv table⟩
    · omega
  · intro l bytes
    cases hread : l.readTable bytes with
    | error e =>
      refine .inl ⟨⟨e, by rw [loadTable, hread]; rfl⟩, fun entries hlists => ?_⟩
      have hok : l.readTable bytes = .ok (GlbTable.ofEntries entries) :=
        GlbTable.readLines_eq_ok_iff.2 ⟨entries, hlists, rfl⟩
      cases hread.symm.trans hok
    | ok table =>
      obtain ⟨entries, hlists, rfl⟩ := GlbTable.readLines_eq_ok_iff.1 hread
      refine .inr ⟨entries, { l with known := l.known.learnAll (.ofEntries entries) }, hlists,
        ?_, rfl, rfl, fun pair => ?_⟩
      · rw [loadTable, hread, ← GlbTable.size_ofEntries]
        rfl
      · rw [← GlbTable.getElem?_ofEntries]
        refine GlbTable.getElem?_learnAll (fun pair hpair => ?_) pair
        exact hlists.canonical _ (GlbTable.mem_ofEntries.1 hpair)

/-- Three types. -/
def threeTypes : Lattice :=
  ⟨{ (default : Hierarchy) with names := .ofList ["*top*", "a", "b"] }, .empty, {}⟩

example : ((threeTypes.loadTable (Text.encode "2 1 -1\n\n1 2 0\n")).toOption.map fun loaded =>
    (loaded.1, loaded.2.known.toList)) = some (1, [((.of 1, .of 2), .of 0)]) := by
  decide +kernel

/-- A table for these types. -/
def twoEntries : GlbTable := GlbTable.ofEntries [((.of 1, .of 2), .bottom), ((.of 0, .of 1), .of 1)]

theorem within_twoEntries : ∀ entry ∈ twoEntries.toList, GlbTable.Within 3 entry := by
  have hlist : twoEntries.toList = [((.of 0, .of 1), .of 1), ((.of 1, .of 2), .bottom)] := by
    decide +kernel
  rw [hlist]
  intro entry hentry
  simp only [List.mem_cons, List.not_mem_nil, or_false] at hentry
  rcases hentry with rfl | rfl
  · exact ⟨⟨0, 1, rfl, by decide, by decide⟩, fun hg => by cases hg; decide⟩
  · exact ⟨⟨1, 2, rfl, by decide, by decide⟩, nofun⟩

/-- The table, and the text with two lines for one pair. -/
theorem table_text_spec_three :
    3 < 2 ^ 32 ∧ (∀ entry ∈ twoEntries.toList, GlbTable.Within 3 entry) ∧
    (∃ found, GlbTable.read 3 (Text.encode twoEntries.render) = .ok found ∧
      found.Equiv twoEntries) ∧
    ∃ (entries : List ((TypeId × TypeId) × TypeId)) (l' : Lattice),
      GlbTable.Lists threeTypes.typeCount (Text.lines (Text.encode "2 1 -1\n\n1 2 0\n")) entries ∧
      threeTypes.loadTable (Text.encode "2 1 -1\n\n1 2 0\n") =
        .ok ((entries.map Prod.fst).toFinset.card, l') ∧
      l'.hierarchy = threeTypes.hierarchy ∧ l'.atoms = threeTypes.atoms ∧
      ∀ pair, l'.known[pair]? = threeTypes.known[pair]?.or (entries.reverse.lookup pair) := by
  refine ⟨by decide, within_twoEntries, table_text_spec.1 3 _ (by decide) within_twoEntries, ?_⟩
  refine (table_text_spec.2 threeTypes (Text.encode "2 1 -1\n\n1 2 0\n")).resolve_left ?_
  rintro ⟨⟨e, he⟩, -⟩
  have hok : (threeTypes.loadTable (Text.encode "2 1 -1\n\n1 2 0\n")).isOk = true := by
    decide +kernel
  rw [he] at hok
  cases hok

end Lattice

end FeatureLogic
