import Mathlib.Algebra.Group.Nat.Defs
import Mathlib.Data.List.SplitBy
import Mathlib.Data.List.TakeWhile
import FeatureLogic.Text.Blank
import FeatureLogic.Text.Decimal
import FeatureLogic.Text.Lines

/-!
Reading back what was written. A number is read from its digits (`Text.int64?_toString`), words that
are put together with blanks are found again (`Text.words_append`), and a text of lines is cut into
these lines (`Text.lines_encode`).
-/

namespace FeatureLogic.Text

/-! ## Numbers -/

theorem toList_toString_ne_nil (n : Nat) : (toString n).toList ≠ [] := by
  rw [Nat.toString_eq_ofList_toDigits, String.toList_ofList]
  exact Nat.toDigits_ne_nil

theorem isDigit_of_mem_toString {n : Nat} {c : Char} (hc : c ∈ (toString n).toList) :
    c.isDigit = true := by
  rw [Nat.toString_eq_ofList_toDigits, String.toList_ofList] at hc
  exact Nat.isDigit_of_mem_toDigits (by decide) (by decide) hc

theorem digitsNat?_toString (n : Nat) : digitsNat? (toString n).toList = some n := by
  have hall : (toString n).toList.all Char.isDigit = true :=
    List.all_eq_true.2 fun c hc => isDigit_of_mem_toString hc
  have hne : (toString n).toList.isEmpty = false := by
    simp
  rw [digitsNat?, hall, hne, Nat.toString_eq_ofList_toDigits, String.toList_ofList,
    ← Nat.ofDigitChars_eq_foldl, Nat.ofDigitChars_ten_toDigits]
  rfl

/-- A number is read back unless it is too wide. -/
theorem int64?_toString (n : Nat) :
    int64? (toString n).toList = if n < 2 ^ 63 then some (n : Int) else none := by
  have hsign : ∀ {c rest}, (toString n).toList = c :: rest → c.isDigit = true := fun h =>
    isDigit_of_mem_toString (h ▸ List.mem_cons_self)
  unfold int64?
  split
  · rename_i rest h
    exact absurd (hsign h) (by decide)
  · rename_i rest h
    exact absurd (hsign h) (by decide)
  · rw [digitsNat?_toString]
    by_cases hn : n < 2 ^ 63
    · rw [if_pos hn, Option.filter_some_pos (by simpa using hn)]
      rfl
    · rw [if_neg hn, Option.filter_some_neg (by simpa using hn)]
      rfl

theorem not_isBlank_of_isDigit {c : Char} (h : c.isDigit = true) : isBlank c = false := by
  simp only [Char.isDigit, Bool.and_eq_true, decide_eq_true_eq] at h
  have h₁ : 48 ≤ c.toNat := h.1
  have h₂ : c.toNat ≤ 57 := h.2
  simp only [isBlank, blankRuns, List.any_cons, List.any_nil, Bool.or_false, Bool.or_eq_false_iff,
    Bool.and_eq_false_iff, decide_eq_false_iff_not]
  omega

/-! ## Words -/

theorem splitBy_of_not_blank {w : List Char} (hne : w ≠ []) (hw : ∀ c ∈ w, isBlank c = false) :
    w.splitBy (fun a b => isBlank a == isBlank b) = [w] := by
  refine List.splitBy_of_isChain hne (List.Pairwise.isChain ?_)
  refine List.Pairwise.imp_of_mem (R := fun _ _ => True) (fun {a b} ha hb _ => ?_)
    (List.pairwise_of_forall fun _ _ => trivial)
  rw [hw a ha, hw b hb]
  rfl

/-- A word that a blank follows is the first word of a text. -/
theorem words_append {w rest : List Char} (hne : w ≠ []) (hw : ∀ c ∈ w, isBlank c = false)
    (hrest : ∀ c ∈ rest.head?, isBlank c = false) : words (w ++ ' ' :: rest) = w :: words rest := by
  have hlast : ∀ c ∈ w.getLast?, (isBlank c == isBlank ' ') = false := by
    intro c hc
    rw [hw c (List.mem_of_mem_getLast? hc)]
    decide
  have hnext : ∀ b ∈ [' '].getLast?, ∀ c ∈ rest.head?, (isBlank b == isBlank c) = false := by
    intro b hb c hc
    obtain rfl : b = ' ' := (Option.some.inj hb).symm
    rw [hrest c hc]
    decide
  have hsplit : (w ++ ' ' :: rest).splitBy (fun a b => isBlank a == isBlank b) =
      w.splitBy (fun a b => isBlank a == isBlank b) ++
        ([' '].splitBy (fun a b => isBlank a == isBlank b) ++
          rest.splitBy fun a b => isBlank a == isBlank b) := by
    rw [List.splitBy_append_cons rest hlast, ← List.splitBy_append hnext]
    rfl
  have hblank : [' '].splitBy (fun a b => isBlank a == isBlank b) = [[' ']] := rfl
  have hword : w.all isBlank = false := by
    obtain ⟨c, more, rfl⟩ := List.exists_cons_of_ne_nil hne
    simp [hw c List.mem_cons_self]
  rw [words, words, hsplit, splitBy_of_not_blank hne hw, hblank, List.singleton_append,
    List.singleton_append, List.filter_cons_of_pos (by simp [hword]),
    List.filter_cons_of_neg (by decide)]

theorem words_of_not_blank {w : List Char} (hne : w ≠ []) (hw : ∀ c ∈ w, isBlank c = false) :
    words w = [w] := by
  obtain ⟨c, more, rfl⟩ := List.exists_cons_of_ne_nil hne
  rw [words, splitBy_of_not_blank hne hw,
    List.filter_cons_of_pos (by simp [hw c List.mem_cons_self])]
  rfl

theorem trim_eq_self {cs : List Char} (hfirst : ∀ c ∈ cs.head?, isBlank c = false)
    (hlast : ∀ c ∈ cs.getLast?, isBlank c = false) : trim cs = cs := by
  have hdrop : ∀ {l : List Char}, (∀ c ∈ l.head?, isBlank c = false) →
      l.dropWhile isBlank = l := by
    intro l h
    cases l with
    | nil => rfl
    | cons c l => rw [List.dropWhile_cons_of_neg (by rw [h c rfl]; exact Bool.false_ne_true)]
  rw [trim, hdrop hfirst, hdrop (by rwa [List.head?_reverse]), List.reverse_reverse]

/-- What stands between blanks alone is what is left when blanks are cut off. -/
theorem trim_of_isBlank {before word after : List Char}
    (hbefore : ∀ c ∈ before, isBlank c = true) (hafter : ∀ c ∈ after, isBlank c = true)
    (hne : word ≠ []) (hword : ∀ c ∈ word, isBlank c = false) :
    trim (before ++ (word ++ after)) = word := by
  have hdrop : ∀ {blanks rest : List Char}, (∀ c ∈ blanks, isBlank c = true) →
      rest ≠ [] → (∀ c ∈ rest.head?, isBlank c = false) →
      (blanks ++ rest).dropWhile isBlank = rest := by
    intro blanks rest hblanks hrest hhead
    obtain ⟨c, rest, rfl⟩ := List.exists_cons_of_ne_nil hrest
    rw [List.dropWhile_append_of_pos hblanks, List.dropWhile_cons_of_neg (by simp [hhead c rfl])]
  obtain ⟨c, more, rfl⟩ := List.exists_cons_of_ne_nil hne
  rw [trim, hdrop hbefore (by simp) fun d hd => hword d (by simp_all), List.reverse_append,
    hdrop (fun d hd => hafter d (List.mem_reverse.1 hd)) (by simp), List.reverse_reverse]
  exact fun d hd => hword d (List.mem_reverse.1 (List.mem_of_mem_head? hd))

theorem exists_trim (cs : List Char) : ∃ before after, (∀ c ∈ before, isBlank c = true) ∧
    (∀ c ∈ after, isBlank c = true) ∧ cs = before ++ (trim cs ++ after) := by
  have hcut : ∀ list : List Char, ∃ blanks, (∀ c ∈ blanks, isBlank c = true) ∧
      list = blanks ++ list.dropWhile isBlank := fun list =>
    ⟨list.takeWhile isBlank, List.all_eq_true.1 List.all_takeWhile,
      List.takeWhile_append_dropWhile.symm⟩
  obtain ⟨before, hbefore, hrest⟩ := hcut cs
  obtain ⟨after, hafter, hword⟩ := hcut (cs.dropWhile isBlank).reverse
  refine ⟨before, after.reverse, hbefore, fun c hc => hafter c (List.mem_reverse.1 hc), ?_⟩
  have hword := congrArg List.reverse hword
  rw [List.reverse_reverse, List.reverse_append] at hword
  rw [trim, ← hword, ← hrest]

theorem trim_eq_nil_iff {cs : List Char} : trim cs = [] ↔ ∀ c ∈ cs, isBlank c = true := by
  constructor
  · intro hnil
    obtain ⟨before, after, hbefore, hafter, hcs⟩ := exists_trim cs
    rw [hcs, hnil, List.nil_append]
    exact fun c hc => (List.mem_append.1 hc).elim (hbefore c) (hafter c)
  · intro hblank
    rw [trim, List.dropWhile_eq_nil_iff.2 hblank]
    rfl

/-! ## Lines -/

theorem toList_eq_data (b : ByteArray) : b.toList = b.data.toList := by
  have hloop : ∀ i acc, ByteArray.toList.loop b i acc = acc.reverse ++ b.data.toList.drop i := by
    intro i acc
    induction i, acc using ByteArray.toList.loop.induct b with
    | case1 i acc hi ih =>
      have hi' : i < b.data.toList.length := hi
      have hget : b.get! i = b.data.toList[i] :=
        (getElem!_pos b.data i hi).trans (Array.getElem_toList _).symm
      rw [ByteArray.toList.loop, if_pos hi, ih, List.drop_eq_getElem_cons hi', hget,
        List.reverse_cons, List.append_assoc, List.singleton_append]
    | case2 i acc hi =>
      rw [ByteArray.toList.loop, if_neg hi, List.drop_of_length_le (Nat.le_of_not_lt hi),
        List.append_nil]
  exact hloop 0 []

theorem encode_append (s t : String) : encode (s ++ t) = encode s ++ encode t := by
  simp [encode, toList_eq_data]

theorem decode?_encode (s : String) : decode? (encode s) = some s := by
  have hbytes : (⟨(encode s).toArray⟩ : ByteArray) = s.toByteArray := by
    rw [encode, toList_eq_data]
    rfl
  rw [decode?, hbytes, String.fromUTF8?, dif_pos s.isValidUTF8]
  rfl

/-- A byte below 128 in the encoding of a character is the character itself. -/
theorem toNat_of_mem_utf8EncodeChar {c : Char} {b : UInt8} (hb : b ∈ String.utf8EncodeChar c)
    (hlt : b.toNat < 128) : c.toNat = b.toNat := by
  have hval : c.toNat = c.val.toNat := rfl
  rw [hval]
  unfold String.utf8EncodeChar at hb
  generalize c.val.toNat = v at hb ⊢
  simp only at hb
  split at hb
  · obtain rfl := List.mem_singleton.1 hb
    rw [UInt8.toNat_ofNat']
    omega
  -- every byte of a longer encoding has its highest bit set
  · exfalso
    split at hb
    · simp only [List.mem_cons, List.not_mem_nil, or_false] at hb
      rcases hb with rfl | rfl <;> rw [UInt8.toNat_ofNat'] at hlt <;> omega
    · split at hb <;> simp only [List.mem_cons, List.not_mem_nil, or_false] at hb
      · rcases hb with rfl | rfl | rfl <;> rw [UInt8.toNat_ofNat'] at hlt <;> omega
      · rcases hb with rfl | rfl | rfl | rfl <;> rw [UInt8.toNat_ofNat'] at hlt <;> omega

theorem encode_eq_flatMap (s : String) : encode s = s.toList.flatMap String.utf8EncodeChar := by
  rw [encode, toList_eq_data, String.toUTF8_eq_toByteArray, ← String.utf8Encode_toList,
    List.utf8Encode, List.toList_data_toByteArray]

theorem exists_of_mem_encode {s : String} {b : UInt8} (hb : b ∈ encode s) (hlt : b.toNat < 128) :
    ∃ c ∈ s.toList, c.toNat = b.toNat := by
  rw [encode_eq_flatMap] at hb
  obtain ⟨c, hc, hbc⟩ := List.mem_flatMap.1 hb
  exact ⟨c, hc, toNat_of_mem_utf8EncodeChar hbc hlt⟩

theorem rawLines_go_append {line : List UInt8} (hline : 10 ∉ line) (rest current : List UInt8)
    (lines : List (List UInt8)) : rawLines.go (line ++ 10 :: rest) current lines =
      rawLines.go rest [] (dropReturn (current.reverse ++ line) :: lines) := by
  induction line generalizing current with
  | nil => simp [rawLines.go]
  | cons b line ih =>
    obtain ⟨hb, hmore⟩ := not_or.1 (mt List.mem_cons.2 hline)
    rw [List.cons_append, rawLines.go, if_neg (Ne.symm hb), ih hmore, List.reverse_cons,
      List.append_assoc, List.singleton_append]

theorem rawLines_flatMap {lines : List (List UInt8)}
    (h : ∀ line ∈ lines, 10 ∉ line ∧ 13 ∉ line) :
    rawLines (lines.flatMap fun line => line ++ [10]) = lines := by
  have hgo : ∀ found, rawLines.go (lines.flatMap fun line => line ++ [10]) [] found =
      found.reverse ++ lines := by
    induction lines with
    | nil => simp [rawLines.go]
    | cons line lines ih =>
      intro found
      obtain ⟨⟨hfeed, hreturn⟩, hrest⟩ := List.forall_mem_cons.1 h
      have hdrop : dropReturn line = line :=
        if_neg fun hlast => hreturn (List.mem_of_getLast? hlast)
      rw [List.flatMap_cons, List.append_assoc, List.singleton_append,
        rawLines_go_append hfeed, List.reverse_nil, List.nil_append, hdrop, ih hrest,
        List.reverse_cons, List.append_assoc, List.singleton_append]
  exact hgo []

/-- A text of lines is cut into them. -/
theorem lines_encode {texts : List String}
    (h : ∀ text ∈ texts, '\n' ∉ text.toList ∧ '\r' ∉ text.toList) :
    lines (encode (String.join (texts.map (· ++ "\n")))) = texts.map some := by
  have hfeed : encode "\n" = [10] := by rw [encode_eq_flatMap]; rfl
  have hbytes : encode (String.join (texts.map (· ++ "\n"))) =
      (texts.map encode).flatMap fun line => line ++ [10] := by
    clear h
    induction texts with
    | nil => rw [encode_eq_flatMap]; rfl
    | cons text texts ih =>
      rw [List.map_cons, String.join_cons, encode_append, encode_append, ih, hfeed,
        List.map_cons, List.flatMap_cons]
  rw [lines, hbytes, rawLines_flatMap, List.map_map]
  · exact List.map_congr_left fun text _ => decode?_encode text
  · intro line hline
    obtain ⟨text, htext, rfl⟩ := List.mem_map.1 hline
    obtain ⟨hfeed, hreturn⟩ := h text htext
    refine ⟨fun hb => ?_, fun hb => ?_⟩
    · obtain ⟨c, hc, heq⟩ := exists_of_mem_encode hb (by decide)
      exact hfeed ((Char.toNat_inj.1 heq : c = '\n') ▸ hc)
    · obtain ⟨c, hc, heq⟩ := exists_of_mem_encode hb (by decide)
      exact hreturn ((Char.toNat_inj.1 heq : c = '\r') ▸ hc)

end FeatureLogic.Text
