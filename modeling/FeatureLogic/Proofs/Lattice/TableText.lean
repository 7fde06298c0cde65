import FeatureLogic.Proofs.Lattice.Meet
import FeatureLogic.Proofs.Text

/-!
The text of a table of greatest lower bounds. Each line is read back as the entry that it was
written for (`GlbTable.readLine_entryText`), and so the text of a table is read back as this table
(`GlbTable.read_render`). Only numbers of more than 63 bits are refused.
-/

namespace FeatureLogic

namespace GlbTable

/-- The table with the entries of another table is that table. -/
theorem ofEntries_toList_equiv (table : GlbTable) : (ofEntries table.toList).Equiv table := by
  have hlist : (Std.TreeMap.ofList table.toList comparePairs).Equiv table := by
    refine Std.TreeMap.Equiv.of_forall_constGet?_eq fun pair => ?_
    cases hpair : table[pair]? with
    | some glb =>
      exact Std.TreeMap.getElem?_ofList_of_mem Std.ReflCmp.compare_self
        Std.TreeMap.distinct_keys_toList (Std.TreeMap.mem_toList_iff_getElem?_eq_some.2 hpair)
    | none =>
      refine Std.TreeMap.getElem?_ofList_of_contains_eq_false ?_
      rw [Std.TreeMap.map_fst_toList_eq_keys, Std.TreeMap.contains_keys,
        Std.TreeMap.contains_eq_isSome_getElem?, hpair]
      rfl
  exact Std.TreeMap.ofList_equiv_foldl.symm.trans hlist

/-! ## Lines -/

/-- An entry that a lattice with `count` types can have: for a canonical pair of its types, and one
of its types or `bottom`. -/
structure Within (count : Nat) (entry : (TypeId × TypeId) × TypeId) : Prop where
  pair : ∃ lo hi, entry.1 = (.of lo, .of hi) ∧ lo ≤ hi ∧ hi < count
  glb : ∀ {g}, entry.2 = .of g → g < count

/-- The line of an entry without its end. -/
def entryText (entry : (TypeId × TypeId) × TypeId) : String :=
  s!"{entry.1.1.code} {entry.1.2.code} {resultText entry.2}"

theorem toList_entryText (entry : (TypeId × TypeId) × TypeId) :
    (entryText entry).toList = (toString entry.1.1.code).toList ++ ' ' ::
      ((toString entry.1.2.code).toList ++ ' ' :: (resultText entry.2).toList) := by
  simp only [entryText, String.toList_append, List.append_assoc]
  rfl

theorem mem_resultText {glb : TypeId} {c : Char} (hc : c ∈ (resultText glb).toList) :
    c.isDigit = true ∨ c = '-' := by
  cases glb with
  | bottom =>
    have : c = '-' ∨ c = '1' := by simpa [resultText] using hc
    rcases this with rfl | rfl <;> decide
  | of g => exact .inl (Text.isDigit_of_mem_toString hc)

theorem resultText_ne_nil (glb : TypeId) : (resultText glb).toList ≠ [] := by
  cases glb with
  | bottom => decide
  | of g => exact Text.toList_toString_ne_nil g

theorem not_isBlank_of_mem_resultText {glb : TypeId} {c : Char}
    (hc : c ∈ (resultText glb).toList) : Text.isBlank c = false := by
  rcases mem_resultText hc with h | rfl
  · exact Text.not_isBlank_of_isDigit h
  · decide

theorem words_entryText (entry : (TypeId × TypeId) × TypeId) :
    Text.trim (entryText entry).toList = (entryText entry).toList ∧
      Text.words (entryText entry).toList = [(toString entry.1.1.code).toList,
        (toString entry.1.2.code).toList, (resultText entry.2).toList] := by
  have hdigits : ∀ {n : Nat} {c}, c ∈ (toString n).toList → Text.isBlank c = false := fun hc =>
    Text.not_isBlank_of_isDigit (Text.isDigit_of_mem_toString hc)
  have hfirst : ∀ {n : Nat} {rest : List Char} {c}, c ∈ ((toString n).toList ++ rest).head? →
      Text.isBlank c = false := by
    intro n rest c hc
    rw [List.head?_append_of_ne_nil _ (Text.toList_toString_ne_nil n)] at hc
    exact hdigits (List.mem_of_mem_head? hc)
  rw [toList_entryText]
  refine ⟨Text.trim_eq_self (fun c => hfirst) (fun c hc => ?_), ?_⟩
  · rw [List.getLast?_append_of_ne_nil _ (List.cons_ne_nil _ _), List.getLast?_cons_of_ne_nil,
      List.getLast?_append_of_ne_nil _ (List.cons_ne_nil _ _), List.getLast?_cons_of_ne_nil] at hc
    · exact not_isBlank_of_mem_resultText (List.mem_of_mem_getLast? hc)
    · exact resultText_ne_nil _
    · simp
  · rw [Text.words_append (Text.toList_toString_ne_nil _) (fun c => hdigits) (fun c => hfirst),
      Text.words_append (Text.toList_toString_ne_nil _) (fun c => hdigits)
        (fun c hc => not_isBlank_of_mem_resultText (List.mem_of_mem_head? hc)),
      Text.words_of_not_blank (resultText_ne_nil _) (fun c => not_isBlank_of_mem_resultText)]

theorem checkedType_of_lt {line count n : Nat} (hn : n < count) :
    checkedType line count (n : Int) = .ok (.of n) := by
  rw [checkedType, if_neg (by omega), Int.toNat_natCast]

/-- A line is read back as its entry, unless a number in it is too wide. -/
theorem readLine_entryText {count : Nat} {entry : (TypeId × TypeId) × TypeId}
    (h : Within count entry) (line : Nat) :
    readLine count line (entryText entry) = .ok (some entry) ∨
      2 ^ 63 < count ∧ ∃ e, readLine count line (entryText entry) = .error e := by
  obtain ⟨⟨lo, hi, hpair, hle, hhi⟩, hglb⟩ := h
  obtain ⟨⟨s, t⟩, glb⟩ := entry
  cases hpair
  obtain ⟨htrim, hwords⟩ := words_entryText ((.of lo, .of hi), glb)
  have hne : (entryText ((.of lo, .of hi), glb)).toList.isEmpty = false := by
    simp [toList_entryText]
  have hcanonical : canonical (.of lo) (.of hi) = (.of lo, .of hi) :=
    if_pos (TypeId.of_le_of.2 hle)
  -- numbers are read as signed numbers of 64 bits
  have hread : ∀ n : Nat, n < 2 ^ 63 → Text.int64? (toString n).toList = some (n : Int) :=
    fun n hn => (Text.int64?_toString n).trans (if_pos hn)
  have hwide : ∀ n : Nat, ¬ n < 2 ^ 63 → Text.int64? (toString n).toList = none :=
    fun n hn => (Text.int64?_toString n).trans (if_neg hn)
  simp only [readLine, htrim, hne, hwords, TypeId.code, List.mapM_cons, List.mapM_nil]
  by_cases hlo' : lo < 2 ^ 63
  swap
  · rw [hwide lo hlo']
    exact .inr ⟨by omega, _, rfl⟩
  rw [hread lo hlo']
  by_cases hhi' : hi < 2 ^ 63
  swap
  · rw [hwide hi hhi']
    exact .inr ⟨by omega, _, rfl⟩
  rw [hread hi hhi']
  have hlo : lo < count := Nat.lt_of_le_of_lt hle hhi
  cases glb with
  | bottom =>
    have hbottom : Text.int64? (resultText .bottom).toList = some (-1) := by decide
    rw [hbottom]
    refine .inl ?_
    simp [checkedType_of_lt hlo, checkedType_of_lt hhi, hcanonical, bind, Except.bind, pure,
      Except.pure]
  | of g =>
    have hg := hglb rfl
    have hg1 : (g : Int) ≠ -1 := by omega
    rw [resultText]
    by_cases hg' : g < 2 ^ 63
    · rw [hread g hg']
      refine .inl ?_
      simp [hg1, checkedType_of_lt hlo, checkedType_of_lt hhi, checkedType_of_lt hg, hcanonical,
        bind, Except.bind, pure, Except.pure]
    · rw [hwide g hg']
      exact .inr ⟨by omega, _, rfl⟩

/-! ## Tables -/

/-- The lines of entries are read back as the table of these entries. -/
theorem readLines_map {count : Nat} (entries : List ((TypeId × TypeId) × TypeId))
    (h : ∀ entry ∈ entries, Within count entry) :
    readLines count (entries.map fun entry => some (entryText entry)) = .ok (ofEntries entries) ∨
      2 ^ 63 < count ∧
        ∃ e, readLines count (entries.map fun entry => some (entryText entry)) = .error e := by
  induction entries using List.reverseRecOn with
  | nil => exact .inl rfl
  | append_singleton rest entry ih =>
    have hrest := ih fun entry hentry => h entry (List.mem_append_left _ hentry)
    have hentry := readLine_entryText (h entry (by simp)) (rest.length + 1)
    unfold readLines at hrest ⊢
    rw [List.map_append, List.zipIdx_append, List.foldlM_append]
    rcases hrest with hok | ⟨hcount, e, he⟩
    · rw [hok]
      simp only [bind, Except.bind, List.map_cons, List.map_nil, List.zipIdx_cons, List.zipIdx_nil,
        List.foldlM_cons, List.foldlM_nil, List.length_map, Nat.zero_add]
      rcases hentry with hok' | ⟨hcount, e, he⟩
      · refine .inl ?_
        rw [hok', ofEntries, ofEntries, List.foldl_append]
        rfl
      · rw [he]
        exact .inr ⟨hcount, e, rfl⟩
    · rw [he]
      exact .inr ⟨hcount, e, rfl⟩

/-- The text of a table is read back as the table, unless its numbers are too wide. -/
theorem read_render {count : Nat} {table : GlbTable}
    (h : ∀ entry ∈ table.toList, Within count entry) :
    read count (Text.encode table.render) = .ok (ofEntries table.toList) ∨
      2 ^ 63 < count ∧ ∃ e, read count (Text.encode table.render) = .error e := by
  have hlines : Text.lines (Text.encode table.render) =
      table.toList.map fun entry => some (entryText entry) := by
    have hrender : table.render = String.join ((table.toList.map entryText).map (· ++ "\n")) := by
      rw [List.map_map]
      rfl
    rw [hrender, Text.lines_encode, List.map_map]
    · rfl
    · intro text htext
      obtain ⟨entry, -, rfl⟩ := List.mem_map.1 htext
      have hplain : ∀ c ∈ (entryText entry).toList, c.isDigit = true ∨ c = '-' ∨ c = ' ' := by
        intro c hc
        simp only [toList_entryText, List.mem_append, List.mem_cons] at hc
        rcases hc with hc | rfl | hc | rfl | hc
        · exact .inl (Text.isDigit_of_mem_toString hc)
        · exact .inr (.inr rfl)
        · exact .inl (Text.isDigit_of_mem_toString hc)
        · exact .inr (.inr rfl)
        · exact (mem_resultText hc).imp_right .inl
      exact ⟨fun hc => absurd (hplain _ hc) (by decide), fun hc => absurd (hplain _ hc) (by decide)⟩
  rw [read, hlines]
  exact readLines_map _ h

end GlbTable

end FeatureLogic
